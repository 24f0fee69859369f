/-
LintHost/Proofs/Environment/References.lean

Texts with references, as a grammar.  A template is a row of pieces, literals and closed
references, and a tail: nothing, or an opening that is never closed.  Where no two literals
in a row make up an opening, the template is legible (`Legible`); every text is the
spelling of a legible template (`exists_legible`).

A reference stands for what the environment has under its name (`getD`).  For a name without
an equals sign that is the value of the variable of that name, or nothing (`getD_eq_named`);
a name with the sign is no variable's, and yet may reach into the value of one.

Main results: expansion is one-pass substitution (`expand_spelling`), and it puts the
values of the named variables in exactly if no reference with an equals sign in its name
reaches into a value (`expansion_substitutes`).
-/
import LintHost.Environment
import Mathlib.Data.List.Flatten
import Mathlib.Data.List.Infix

namespace LintHost.Environment

/-! ### Templates -/

/-- A piece of a text with references. -/
inductive Piece where
  | literal (text : List Char)
  | reference (name : List Char)
  deriving DecidableEq, Repr

namespace Piece

/-- A piece as it is written. -/
def spelling : Piece → List Char
  | literal text => text
  | reference name => '$' :: '{' :: (name ++ ['}'])

/-- What a piece is replaced by, where names have values. -/
def replaced (value : String → String) : Piece → List Char
  | literal text => text
  | reference name => (value (String.ofList name)).toList

end Piece

/-- A text in pieces, and what stands behind the last of them. -/
structure Template where
  pieces : List Piece
  tail : List Char
  deriving DecidableEq, Repr

/-- The literals at the front of some pieces, joined. -/
def leading : List Piece → List Char
  | .literal text :: rest => text ++ leading rest
  | _ => []

/-- Whether no reference is opened in a text. -/
def Unopened (s : List Char) : Prop := ¬ ['$', '{'] <:+: s

instance : DecidablePred Unopened := fun s => inferInstanceAs (Decidable ¬ ['$', '{'] <:+: s)

/-- Whether pieces can be told apart: no reference is opened by literals in a row, and no name
closes its reference early. -/
def Separate : List Piece → Prop
  | [] => True
  | .literal text :: rest => Unopened (text ++ leading rest) ∧ Separate rest
  | .reference name :: rest => '}' ∉ name ∧ Separate rest

instance decidableSeparate : DecidablePred Separate
  | [] => .isTrue trivial
  | .literal text :: rest =>
    have := decidableSeparate rest
    inferInstanceAs (Decidable (Unopened (text ++ leading rest) ∧ Separate rest))
  | .reference name :: rest =>
    have := decidableSeparate rest
    inferInstanceAs (Decidable ('}' ∉ name ∧ Separate rest))

namespace Template

/-- A template as it is written. -/
def spelling (t : Template) : List Char := t.pieces.flatMap Piece.spelling ++ t.tail

/-- A template with its references replaced. -/
def replaced (value : String → String) (t : Template) : List Char :=
  t.pieces.flatMap (Piece.replaced value) ++ t.tail

/-- Whether a template can be read off its spelling: its pieces can be told apart, and its tail is
an opening that is not closed, if there is one. -/
structure Legible (t : Template) : Prop where
  pieces : Separate t.pieces
  tail : t.tail = [] ∨ ∃ rest, t.tail = '$' :: '{' :: rest ∧ '}' ∉ rest

end Template

/-! ### Openings -/

theorem unopened_nil : Unopened [] := by
  intro h
  simpa using h.length_le

/-- A character goes in front of a text without opening a reference if it is no dollar sign or no
brace follows. -/
theorem unopened_cons {c : Char} {s : List Char} :
    Unopened (c :: s) ↔ ¬(c = '$' ∧ s.head? = some '{') ∧ Unopened s := by
  have hfront : ['$', '{'] <+: c :: s ↔ c = '$' ∧ s.head? = some '{' := by
    rw [List.cons_prefix_cons, eq_comm (a := '$')]
    refine and_congr_right fun _ => ?_
    cases s with
    | nil => simp
    | cons d s => simp [List.cons_prefix_cons, eq_comm]
  rw [Unopened, List.infix_cons_iff, hfront, not_or]
  rfl

/-- Two texts join without opening a reference if the first one does not end in a dollar sign. -/
theorem Unopened.append {a b : List Char} (ha : Unopened a) (hb : Unopened b)
    (hend : a.getLast? ≠ some '$') : Unopened (a ++ b) := by
  induction a with
  | nil => exact hb
  | cons c a ih =>
    obtain ⟨hc, ha⟩ := unopened_cons.1 ha
    cases a with
    | nil =>
      refine unopened_cons.2 ⟨?_, hb⟩
      rintro ⟨rfl, -⟩
      exact hend rfl
    | cons d a =>
      refine unopened_cons.2 ⟨hc, ih ha ?_⟩
      rwa [List.getLast?_cons_cons] at hend

/-- A character that opens no reference is kept. -/
theorem expand_cons (env : Environment) {c : Char} {s : List Char}
    (h : ¬(c = '$' ∧ s.head? = some '{')) : env.expand (c :: s) = c :: env.expand s := by
  rw [expand]
  rintro rest rfl rfl
  exact h ⟨rfl, rfl⟩

/-- An opening that is never closed is kept. -/
theorem expand_unclosed (env : Environment) {rest : List Char} (h : '}' ∉ rest) :
    env.expand ('$' :: '{' :: rest) = '$' :: '{' :: rest := by
  rw [expand]
  split
  · next hs =>
    obtain ⟨rfl, -⟩ := Text.splitFirst?_eq_some_iff.1 hs
    exact absurd (List.mem_append_right _ List.mem_cons_self) h
  · rfl

/-! ### Expansion of a template -/

variable {env : Environment}

/-- Some characters are kept in front of a text if no reference is opened in them or where the text
begins; of what begins there only a brace matters. -/
theorem expand_append_of_unopened {text follow s : List Char} (h : Unopened (text ++ follow))
    (hs : s.head? = some '{' → follow.head? = some '{') :
    env.expand (text ++ s) = text ++ env.expand s := by
  induction text with
  | nil => rfl
  | cons c text ih =>
    obtain ⟨hc, h⟩ := unopened_cons.1 h
    rw [List.cons_append, expand_cons, ih h]
    · rfl
    · rintro ⟨rfl, hbrace⟩
      refine hc ⟨rfl, ?_⟩
      cases text with
      | nil => exact hs hbrace
      | cons d text => exact hbrace

/-- A brace at the front of a legible template stands in a literal. -/
theorem Template.Legible.head?_leading {pieces : List Piece} {tail : List Char}
    (h : (⟨pieces, tail⟩ : Template).Legible)
    (hbrace : (pieces.flatMap Piece.spelling ++ tail).head? = some '{') :
    (leading pieces).head? = some '{' := by
  induction pieces with
  | nil =>
    obtain htail | ⟨rest, htail, -⟩ := h.tail
    · dsimp only at htail
      rw [htail] at hbrace
      cases hbrace
    · dsimp only at htail
      rw [htail] at hbrace
      cases hbrace
  | cons piece pieces ih =>
    cases piece with
    | reference name => cases hbrace
    | literal text =>
      cases text with
      | nil => exact ih ⟨h.pieces.2, h.tail⟩ hbrace
      | cons c text => exact hbrace

/-- **Expansion is one-pass substitution.**  In a legible template every reference gives way to what
the environment has under its name, and all else is kept. -/
theorem Template.Legible.expand_spelling {t : Template} (h : t.Legible) :
    env.expand t.spelling = t.replaced env.getD := by
  obtain ⟨pieces, tail⟩ := t
  show env.expand (pieces.flatMap Piece.spelling ++ tail)
    = pieces.flatMap (Piece.replaced env.getD) ++ tail
  induction pieces with
  | nil =>
    obtain htail | ⟨rest, htail, hrest⟩ := h.tail
    · obtain rfl : tail = [] := htail
      show env.expand [] = []
      rw [expand]
    · obtain rfl : tail = '$' :: '{' :: rest := htail
      exact expand_unclosed env hrest
  | cons piece pieces ih =>
    rw [List.flatMap_cons, List.flatMap_cons, List.append_assoc, List.append_assoc]
    cases piece with
    | literal text =>
      have hrest : (⟨pieces, tail⟩ : Template).Legible := ⟨h.pieces.2, h.tail⟩
      rw [← ih hrest]
      exact expand_append_of_unopened h.pieces.1 hrest.head?_leading
    | reference name =>
      have hrest : (⟨pieces, tail⟩ : Template).Legible := ⟨h.pieces.2, h.tail⟩
      rw [← ih hrest]
      show _ = (env.getD (String.ofList name)).toList ++ _
      rw [← expand_reference env h.pieces.1]
      simp [Piece.spelling]

/-! ### Every text is a template -/

theorem Separate.unopened_leading {pieces : List Piece} (h : Separate pieces) :
    Unopened (leading pieces) := by
  cases pieces with
  | nil => exact unopened_nil
  | cons piece pieces =>
    cases piece with
    | literal text => exact h.1
    | reference name => exact unopened_nil

/-- The literals at the front are the front of the spelling. -/
theorem leading_prefix (pieces : List Piece) :
    leading pieces <+: pieces.flatMap Piece.spelling := by
  induction pieces with
  | nil => exact List.prefix_rfl
  | cons piece pieces ih =>
    cases piece with
    | literal text => exact (List.prefix_append_right_inj text).2 ih
    | reference name => exact List.nil_prefix

/-- Every text is the spelling of a legible template. -/
theorem exists_legible (s : List Char) : ∃ t : Template, t.Legible ∧ t.spelling = s := by
  -- along the one pass that expansion makes, in whatever environment
  have env : Environment := default
  fun_induction env.expand s with
  | case1 => exact ⟨⟨[], []⟩, ⟨trivial, .inl rfl⟩, rfl⟩
  | case2 rest name after hsplit ih =>
    obtain ⟨t, ht, hspelling⟩ := ih
    obtain ⟨rfl, hname⟩ := Text.splitFirst?_eq_some_iff.1 hsplit
    refine ⟨⟨.reference name :: t.pieces, t.tail⟩, ⟨⟨hname, ht.pieces⟩, ht.tail⟩, ?_⟩
    rw [← hspelling]
    simp [Template.spelling, Piece.spelling]
  | case3 rest hsplit =>
    refine ⟨⟨[], '$' :: '{' :: rest⟩, ⟨trivial, .inr ⟨rest, rfl, fun hmem => ?_⟩⟩, rfl⟩
    obtain ⟨before, after, rfl, hbefore⟩ := List.eq_append_cons_of_mem hmem
    rw [Text.splitFirst?_eq_some_iff.2 ⟨rfl, hbefore⟩] at hsplit
    cases hsplit
  | case4 c rest hopen ih =>
    obtain ⟨t, ht, hspelling⟩ := ih
    have hunopened := ht.pieces.unopened_leading
    refine ⟨⟨.literal [c] :: t.pieces, t.tail⟩, ⟨⟨unopened_cons.2 ⟨?_, hunopened⟩, ht.pieces⟩,
      ht.tail⟩, by rw [← hspelling]; rfl⟩
    rintro ⟨rfl, hbrace⟩
    -- a brace at the front of the literals would stand at the front of the text
    obtain ⟨more, hmore⟩ := leading_prefix t.pieces
    cases hlead : leading t.pieces with
    | nil => rw [hlead] at hbrace; cases hbrace
    | cons d lead =>
      rw [hlead] at hbrace
      obtain rfl := Option.some.inj hbrace
      refine hopen (lead ++ more ++ t.tail) rfl ?_
      rw [← hspelling, Template.spelling, ← hmore, hlead]
      rfl

/-! ### Texts one behind the other -/

/-- Whether every reference that a text opens is closed in it. -/
def Closed (s : List Char) : Prop :=
  ∃ t : Template, t.Legible ∧ t.tail = [] ∧ t.spelling = s

/-- The literals at the front of two rows of pieces are those of the first row, or the first row is
literals and those of the second row follow. -/
theorem leading_append (first second : List Piece) :
    leading (first ++ second) = leading first ∨
      first.flatMap Piece.spelling = leading first ∧
        leading (first ++ second) = leading first ++ leading second := by
  induction first with
  | nil => exact .inr ⟨rfl, rfl⟩
  | cons piece first ih =>
    cases piece with
    | reference name => exact .inl rfl
    | literal text =>
      obtain hleft | ⟨hall, hboth⟩ := ih
      · exact .inl (congrArg (text ++ ·) hleft)
      · refine .inr ⟨congrArg (text ++ ·) hall, ?_⟩
        show text ++ leading (first ++ second) = text ++ leading first ++ leading second
        rw [hboth, List.append_assoc]

/-- Two rows of pieces that can be told apart make up one if the first does not end in a dollar
sign. -/
theorem Separate.append {first second : List Piece} (hfirst : Separate first)
    (hsecond : Separate second) (hend : (first.flatMap Piece.spelling).getLast? ≠ some '$') :
    Separate (first ++ second) := by
  induction first with
  | nil => exact hsecond
  | cons piece first ih =>
    have hrest : (first.flatMap Piece.spelling).getLast? ≠ some '$' := fun hlast => by
      rw [List.flatMap_cons, List.getLast?_append, hlast] at hend
      exact hend rfl
    cases piece with
    | reference name => exact ⟨hfirst.1, ih hfirst.2 hrest⟩
    | literal text =>
      refine ⟨?_, ih hfirst.2 hrest⟩
      show Unopened (text ++ leading (first ++ second))
      obtain hleft | ⟨hall, hboth⟩ := leading_append first second
      · rw [hleft]
        exact hfirst.1
      · rw [hboth, ← List.append_assoc]
        refine hfirst.1.append hsecond.unopened_leading ?_
        rw [← hall]
        exact hend

/-- **Expansion works on texts one behind the other**, if the first one closes its references and
does not end in a dollar sign. -/
theorem expand_append (env : Environment) {a b : List Char} (ha : Closed a)
    (hend : a.getLast? ≠ some '$') : env.expand (a ++ b) = env.expand a ++ env.expand b := by
  obtain ⟨⟨first, tail⟩, hfirst, htail, rfl⟩ := ha
  obtain rfl : tail = [] := htail
  obtain ⟨⟨second, rest⟩, hsecond, rfl⟩ := exists_legible b
  have hspelling : (Template.spelling ⟨first, []⟩) = first.flatMap Piece.spelling :=
    List.append_nil _
  rw [hspelling] at hend
  have hboth : (⟨first ++ second, rest⟩ : Template).Legible :=
    ⟨hfirst.pieces.append hsecond.pieces hend, hsecond.tail⟩
  have hjoin : Template.spelling ⟨first, []⟩ ++ Template.spelling ⟨second, rest⟩
      = Template.spelling ⟨first ++ second, rest⟩ := by
    simp [Template.spelling]
  rw [hjoin, hboth.expand_spelling, hfirst.expand_spelling, hsecond.expand_spelling]
  simp [Template.replaced]

/-! ### What a reference stands for -/

/-- The value of the variable with a name; nothing if no variable has it, or none can have it. -/
def named (env : Environment) (name : String) : String :=
  if isPossible name && !name.toList.contains '=' then (env.values.lookup name).getD "" else ""

/-- What a variable has under a name follows the name and the sign in its text. -/
theorem valueUnder_eq_some_iff {name value : String} {entry : String × String} :
    valueUnder name entry = some value ↔
      entry.1.toList ++ '=' :: entry.2.toList = name.toList ++ '=' :: value.toList := by
  rw [valueUnder, Option.map_eq_some_iff]
  constructor
  · rintro ⟨rest, hrest, rfl⟩
    have happend := List.isPrefixOf?_eq_some_iff_append_eq.1 hrest
    rw [← happend, String.toList_ofList]
    simp
  · intro h
    refine ⟨value.toList, List.isPrefixOf?_eq_some_iff_append_eq.2 ?_, String.ofList_toList⟩
    rw [h]
    simp

/-- Under a name without the sign a variable has its value if the name is its own, and nothing
else. -/
theorem valueUnder_eq {name : String} {entry : String × String} (hname : '=' ∉ name.toList)
    (hentry : '=' ∉ entry.1.toList) :
    valueUnder name entry = if name = entry.1 then some entry.2 else none := by
  obtain ⟨own, value⟩ := entry
  split
  · next h =>
    subst h
    exact valueUnder_self name value
  · next h =>
    refine Option.eq_none_iff_forall_ne_some.2 fun other hother => h ?_
    have htext := valueUnder_eq_some_iff.1 hother
    -- the text is cut at its first sign, in one way
    have hcut : Text.splitFirst? '=' (own.toList ++ '=' :: value.toList)
        = some (own.toList, value.toList) := Text.splitFirst?_eq_some_iff.2 ⟨rfl, hentry⟩
    rw [htext, Text.splitFirst?_eq_some_iff.2 ⟨rfl, hname⟩] at hcut
    simp only [Option.some.injEq, Prod.mk.injEq, String.toList_inj] at hcut
    exact hcut.1

/-- A name without the sign stands for the variable of that name. -/
theorem getD_eq_named {name : String} (hproper : ∀ entry ∈ env.values, '=' ∉ entry.1.toList)
    (hname : '=' ∉ name.toList) : env.getD name = env.named name := by
  have hfind : env.values.findSome? (valueUnder name) = env.values.lookup name := by
    revert hproper
    induction env.values with
    | nil => exact fun _ => rfl
    | cons entry values ih =>
      intro hproper
      rw [List.findSome?_cons, valueUnder_eq hname (hproper entry List.mem_cons_self),
        List.lookup_cons, ← ih fun e he => hproper e (List.mem_cons_of_mem _ he)]
      by_cases h : name = entry.1
      · rw [if_pos h, beq_iff_eq.2 h]
      · rw [if_neg h, beq_false_of_ne h]
  unfold getD get? named
  rw [hfind]
  have hcontains : name.toList.contains '=' = false := by simpa using hname
  rw [hcontains, Bool.not_false, Bool.and_true]
  split
  · rfl
  · rfl

/-- A name with the sign is no variable's. -/
theorem named_of_mem {name : String} (h : '=' ∈ name.toList) : env.named name = "" := by
  have hcontains : name.toList.contains '=' = true := by simpa using h
  rw [named, hcontains, Bool.not_true, Bool.and_false, if_neg Bool.false_ne_true]

/-- Two texts one behind the other, and a part of each: together the parts are all of it exactly if
each of them is. -/
theorem append_eq_append_iff_of_sublist {a b a' b' : List Char} (ha : a'.Sublist a)
    (hb : b'.Sublist b) : a ++ b = a' ++ b' ↔ a = a' ∧ b = b' := by
  refine ⟨fun h => ?_, fun ⟨ha, hb⟩ => by rw [ha, hb]⟩
  have hlength := congrArg List.length h
  rw [List.length_append, List.length_append] at hlength
  have hfront := ha.length_le
  have hback := hb.length_le
  exact List.append_inj h (by omega)

/-- Of two ways to replace the references, where each value of the one is a part of the other's,
both give one text exactly if they agree on every reference. -/
theorem replaced_eq_iff {few many : String → String}
    (hpart : ∀ name, (few name).toList.Sublist (many name).toList) (t : Template) :
    t.replaced many = t.replaced few ↔ ∀ name, .reference name ∈ t.pieces →
      many (String.ofList name) = few (String.ofList name) := by
  have hpiece (piece : Piece) : (piece.replaced few).Sublist (piece.replaced many) := by
    cases piece with
    | literal text => exact List.Sublist.refl text
    | reference name => exact hpart _
  rw [Template.replaced, Template.replaced, List.append_left_inj]
  induction t.pieces with
  | nil => simp
  | cons piece pieces ih =>
    have hrest := List.Sublist.flatMap_right pieces fun p _ => hpiece p
    rw [List.flatMap_cons, List.flatMap_cons,
      append_eq_append_iff_of_sublist (hpiece piece) hrest]
    refine (and_congr_right fun _ => ih).trans ?_
    cases piece with
    | literal text => simp [Piece.replaced]
    | reference name => simp [Piece.replaced, String.toList_inj]

/-- What a name stands for is the value of the variable of that name; a name with the sign, which is
no variable's, may stand for something all the same. -/
theorem getD_eq_named_iff {name : String} (hproper : ∀ entry ∈ env.values, '=' ∉ entry.1.toList) :
    env.getD name = env.named name ↔ ('=' ∈ name.toList → env.getD name = "") := by
  by_cases hname : '=' ∈ name.toList
  · rw [named_of_mem hname]
    exact ⟨fun h _ => h, fun h => h hname⟩
  · exact ⟨fun _ h => absurd h hname, fun _ => getD_eq_named hproper hname⟩

/-- **Expansion substitutes, once and from left to right.**  Every text is the spelling of a legible
template.  It is expanded to that template with each reference replaced by what the environment has
under its name, word for word, and all else kept.  If the names of the variables hold no equals
sign, these are the values of the named variables, and nothing where there is no such variable,
exactly if no reference with the sign in its name stands for something.  And the expansion of two
texts one behind the other is that of the first and then that of the second, if the first one closes
its references and does not end in a dollar sign. -/
theorem expansion_substitutes (env : Environment)
    (hproper : ∀ entry ∈ env.values, '=' ∉ entry.1.toList) :
    (∀ s, ∃ t : Template, t.Legible ∧ t.spelling = s) ∧
      (∀ t : Template, t.Legible →
        env.expand t.spelling = t.replaced env.getD ∧
          (env.expand t.spelling = t.replaced env.named ↔
            ∀ name, .reference name ∈ t.pieces → '=' ∈ name →
              env.getD (String.ofList name) = "")) ∧
      ∀ a b, Closed a → a.getLast? ≠ some '$' →
        env.expand (a ++ b) = env.expand a ++ env.expand b := by
  refine ⟨exists_legible, fun t ht => ⟨ht.expand_spelling, ?_⟩, fun a b => expand_append env⟩
  -- a named variable's value is all that is found, or nothing of it
  have hpart (name : String) : (env.named name).toList.Sublist (env.getD name).toList := by
    by_cases hname : '=' ∈ name.toList
    · rw [named_of_mem hname]
      exact List.nil_sublist _
    · rw [getD_eq_named hproper hname]
  rw [ht.expand_spelling, replaced_eq_iff hpart]
  refine forall_congr' fun name => imp_congr_right fun _ => ?_
  rw [getD_eq_named_iff hproper, String.toList_ofList]

/-- Two variables, one of which holds an opening; a reference to it behind a dollar sign, one to a
variable that is not set, and one that is not closed. -/
theorem expansion_substitutes_of_openings :
    let env : Environment := { values := [("A", "$\x7bB\x7d"), ("B", "b")] }
    let t : Template :=
      ⟨[.literal ['$'], .reference ['A'], .literal ['}'], .reference ['C']], "$\x7bB".toList⟩
    (∀ entry ∈ env.values, '=' ∉ entry.1.toList) ∧ t.Legible ∧
      t.spelling = "$$\x7bA\x7d\x7d$\x7bC\x7d$\x7bB".toList ∧
      env.expand "$$\x7bA\x7d\x7d$\x7bC\x7d$\x7bB".toList = "$$\x7bB\x7d\x7d$\x7bB".toList ∧
      Closed "$\x7bC\x7d".toList ∧ "$\x7bC\x7d".toList.getLast? ≠ some '$' ∧
      env.expand "$\x7bC\x7d$\x7bB".toList =
        env.expand "$\x7bC\x7d".toList ++ env.expand "$\x7bB".toList := by
  intro env t
  have hproper : ∀ entry ∈ env.values, '=' ∉ entry.1.toList := by decide
  obtain ⟨-, hexpand, happend⟩ := expansion_substitutes env hproper
  have ht : t.Legible := ⟨by decide, .inr ⟨['B'], rfl, by decide⟩⟩
  have hspelling : t.spelling = "$$\x7bA\x7d\x7d$\x7bC\x7d$\x7bB".toList := by decide
  have hreplaced : t.replaced env.getD = "$$\x7bB\x7d\x7d$\x7bB".toList := by decide
  have hclosed : Closed "$\x7bC\x7d".toList :=
    ⟨⟨[.reference ['C']], []⟩, ⟨by decide, .inl rfl⟩, rfl, by decide⟩
  have hend : "$\x7bC\x7d".toList.getLast? ≠ some '$' := by decide
  refine ⟨hproper, ht, hspelling, ?_, hclosed, hend, happend _ "$\x7bB".toList hclosed hend⟩
  rw [← hspelling, (hexpand t ht).1, hreplaced]

/-- No variable has the name of this reference, and yet it stands for something: the name ends
inside the value of one. -/
theorem name_reaches_into_value :
    let env : Environment := { values := [("A", "B=foo")] }
    let t : Template := ⟨[.literal ['<'], .reference "A=B".toList, .literal ['>']], []⟩
    t.Legible ∧ env.named "A=B" = "" ∧ t.replaced env.named = "<>".toList ∧
      env.expand t.spelling = "<foo>".toList := by
  intro env t
  have ht : t.Legible := ⟨by decide, .inl rfl⟩
  refine ⟨ht, by decide, by decide, ?_⟩
  rw [ht.expand_spelling]
  decide

end LintHost.Environment
