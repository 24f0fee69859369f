/-
LintHost/Proofs/Finding/Records.lean

One finding as a JSON object.  `Renders` says what such an object may look like:
the known members in any order with others among them, a missing text left out or
null, a mark as an object or as a list.  `Spoiled` says what may be wrong with one:
a known member is missing, repeated, or does not fit.

Main results: an object that renders a finding is read as that finding
(`finding?_of_renders`), and an object is no finding exactly when one of its known
members is spoiled (`finding?_eq_none_iff`).  Both come down to one fact for each
kind of member, so that the two kinds of object, findings and marks, share them.
-/
import LintHost.Finding.Report

namespace LintHost.Report

open Json

/-! ### Members -/

/-- An object's members in any order: some fields, and others whose names are not known. -/
def Interspersed (known : List String) (fields members : List (String × Value)) : Prop :=
  ∃ others, members.Perm (fields ++ others) ∧ ∀ m ∈ others, m.1 ∉ known

/-- What may be wrong with a member of an object: it is missing though it is required, it is
repeated, or its value does not fit. -/
inductive Spoiled (name : String) (required : Bool) (Fits : Value → Prop)
    (members : List (String × Value)) : Prop
  | missing : required = true → (∀ m ∈ members, m.1 ≠ name) → Spoiled name required Fits members
  | repeated : 2 ≤ (membersNamed name members).length → Spoiled name required Fits members
  | unfit {v : Value} : (name, v) ∈ members → ¬Fits v → Spoiled name required Fits members

theorem mem_membersNamed_iff {name : String} {members : List (String × Value)} {v : Value} :
    v ∈ membersNamed name members ↔ (name, v) ∈ members := by
  simp [membersNamed]

theorem membersNamed_append (name : String) (a b : List (String × Value)) :
    membersNamed name (a ++ b) = membersNamed name a ++ membersNamed name b := by
  simp [membersNamed]

theorem membersNamed_eq_nil_iff {name : String} {members : List (String × Value)} :
    membersNamed name members = [] ↔ ∀ m ∈ members, m.1 ≠ name := by
  simp [membersNamed]

/-- The values of a known name are those of the fields. -/
theorem Interspersed.perm_membersNamed {known : List String}
    {fields members : List (String × Value)} (h : Interspersed known fields members)
    {name : String} (hn : name ∈ known) :
    (membersNamed name members).Perm (membersNamed name fields) := by
  obtain ⟨others, hperm, hothers⟩ := h
  have hnone : membersNamed name others = [] :=
    membersNamed_eq_nil_iff.2 fun m hm he => hothers m hm (he ▸ hn)
  have hall := (hperm.filter fun m => m.1 == name).map Prod.snd
  change (membersNamed name members).Perm (membersNamed name (fields ++ others)) at hall
  rwa [membersNamed_append, hnone, List.append_nil] at hall

theorem Interspersed.member?_eq {known : List String} {fields members : List (String × Value)}
    (h : Interspersed known fields members) {missing : Option Value} {name : String} {v : Value}
    (hn : name ∈ known)
    (hv : membersNamed name fields = [v] ∨ membersNamed name fields = [] ∧ missing = some v) :
    member? missing name members = some v := by
  have hperm := h.perm_membersNamed hn
  rcases hv with hv | ⟨hv, rfl⟩
  · rw [hv, List.perm_singleton] at hperm
    rw [member?, hperm]
  · rw [hv, List.perm_nil] at hperm
    rw [member?, hperm]

/-- A member cannot be read exactly when something is wrong with it. -/
theorem member?_bind_eq_none_iff {α : Type} {read : Value → Option α} {Fits : Value → Prop}
    (hread : ∀ v, read v = none ↔ ¬Fits v) {missing : Option Value}
    (hmissing : ∀ v ∈ missing, Fits v) {name : String} {members : List (String × Value)} :
    (member? missing name members).bind read = none
      ↔ Spoiled name missing.isNone Fits members := by
  unfold member?
  constructor
  · intro h
    split at h
    · next hnil =>
      cases missing with
      | none => exact .missing rfl (membersNamed_eq_nil_iff.1 hnil)
      | some v => exact absurd (hmissing v rfl) ((hread v).1 h)
    · next v hv =>
      exact .unfit (mem_membersNamed_iff.1 (hv ▸ List.mem_singleton_self v)) ((hread v).1 h)
    · next hnil hone =>
      match hm : membersNamed name members with
      | [] => exact absurd hm hnil
      | [v] => exact absurd hm (hone v)
      | v :: w :: rest => exact .repeated (by simp [hm])
  · rintro (⟨hreq, hm⟩ | h | ⟨hv, hfit⟩)
    · rw [membersNamed_eq_nil_iff.2 hm, Option.isNone_iff_eq_none.1 hreq]
      rfl
    · split
      · next hv => simp [hv] at h
      · next v hv => simp [hv] at h
      · rfl
    · have hmem := mem_membersNamed_iff.2 hv
      split
      · next hnil =>
        rw [hnil] at hmem
        exact absurd hmem List.not_mem_nil
      · next w hw =>
        rw [hw, List.mem_singleton] at hmem
        exact (hread w).2 (hmem ▸ hfit)
      · rfl

/-! ### Texts and coordinates -/

/-- Whether a value is a text. -/
def IsText (v : Value) : Prop :=
  ∃ s, v = .string s

/-- Whether a value is a text or null. -/
def IsOptional (v : Value) : Prop :=
  v = .null ∨ IsText v

/-- The number is written in plain digits. -/
def RendersWord (n : UInt32) (v : Value) : Prop :=
  ∃ digits, v = .number { whole := digits } ∧ Text.ofDigits digits = n.toNat

/-- Whether a value is a 32-bit word in plain digits. -/
def IsWord (v : Value) : Prop :=
  ∃ n, RendersWord n v

theorem string?_eq_none_iff (v : Value) : string? v = none ↔ ¬IsText v := by
  cases v <;> simp [string?, IsText]

theorem optional?_eq_none_iff (v : Value) : optional? v = none ↔ ¬IsOptional v := by
  cases v <;> simp [optional?, string?, IsOptional, IsText]

theorem word?_eq_some_iff {n : UInt32} {v : Value} : word? v = some n ↔ RendersWord n v := by
  cases v with
  | number k =>
    obtain ⟨negative, whole, fraction, exponent⟩ := k
    simp only [word?, Numeral.natural?, RendersWord, Value.number.injEq, Numeral.mk.injEq]
    constructor
    · intro h
      split at h
      · next hplain =>
        obtain ⟨rfl, rfl, rfl⟩ := hplain
        simp only [Option.bind_eq_bind, Option.bind_some] at h
        split at h
        · next hlt =>
          cases h
          exact ⟨whole, ⟨rfl, rfl, rfl, rfl⟩, (UInt32.toNat_ofNat_of_lt' hlt).symm⟩
        · cases h
      · cases h
    · rintro ⟨digits, ⟨rfl, rfl, rfl, rfl⟩, hn⟩
      simp [hn, n.toNat_lt_size]
  | null | bool | string | array | object => simp [word?, RendersWord]

theorem word?_eq_none_iff (v : Value) : word? v = none ↔ ¬IsWord v := by
  simp only [IsWord, ← word?_eq_some_iff, Option.eq_none_iff_forall_ne_some, not_exists, ne_eq]

/-! ### Marks -/

/-- The members of a mark. -/
def markNames : List String := ["row", "column"]

/-- A mark as an object, or as a list of row and column. -/
inductive RendersMark (m : Mark) : Value → Prop
  | object {row column : Value} {members : List (String × Value)} : RendersWord m.row row →
      RendersWord m.column column →
      Interspersed markNames [("row", row), ("column", column)] members →
      RendersMark m (.object members)
  | list {row column : Value} : RendersWord m.row row → RendersWord m.column column →
      RendersMark m (.array [row, column])

/-- What may be wrong with a mark. -/
inductive SpoiledMark : Value → Prop
  | shape {v : Value} : (∀ members, v ≠ .object members) → (∀ items, v ≠ .array items) →
      SpoiledMark v
  | row {members : List (String × Value)} : Spoiled "row" true IsWord members →
      SpoiledMark (.object members)
  | column {members : List (String × Value)} : Spoiled "column" true IsWord members →
      SpoiledMark (.object members)
  | length {items : List Value} : items.length ≠ 2 → SpoiledMark (.array items)
  | item {items : List Value} {v : Value} : v ∈ items → ¬IsWord v → SpoiledMark (.array items)

theorem mark?_of_renders {m : Mark} {v : Value} (h : RendersMark m v) : mark? v = some m := by
  cases h with
  | object hr hc hm =>
    have hrow : required? "row" _ = some _ := hm.member?_eq (by simp [markNames]) (.inl rfl)
    have hcolumn : required? "column" _ = some _ := hm.member?_eq (by simp [markNames]) (.inl rfl)
    simp [mark?, hrow, hcolumn, word?_eq_some_iff.2 hr, word?_eq_some_iff.2 hc]
  | list hr hc => simp [mark?, word?_eq_some_iff.2 hr, word?_eq_some_iff.2 hc]

/-- A step that can fail, before others whose failure does not depend on its result. -/
theorem bind_eq_none_iff_or {α β : Type} {x : Option α} {f : α → Option β} {P Q : Prop}
    (hx : x = none ↔ P) (hf : ∀ a, f a = none ↔ Q) : x.bind f = none ↔ P ∨ Q := by
  rw [← hx]
  cases x <;> simp [hf]

/-- What is wrong with a required coordinate. -/
theorem word_eq_none_iff (name : String) (members : List (String × Value)) :
    (required? name members).bind word? = none ↔ Spoiled name true IsWord members :=
  member?_bind_eq_none_iff word?_eq_none_iff (by simp)

theorem mark?_object_eq_none_iff (members : List (String × Value)) :
    mark? (.object members) = none
      ↔ Spoiled "row" true IsWord members ∨ Spoiled "column" true IsWord members := by
  have hbind : mark? (.object members)
      = ((required? "row" members).bind word?).bind fun row =>
          ((required? "column" members).bind word?).bind fun column => some ⟨row, column⟩ := by
    simp [mark?, Option.bind_assoc]
  rw [hbind]
  refine bind_eq_none_iff_or (word_eq_none_iff _ _) fun row => ?_
  rw [← or_false (Spoiled "column" _ _ _)]
  exact bind_eq_none_iff_or (word_eq_none_iff _ _) (by simp)

theorem mark?_list_eq_none_iff (row column : Value) :
    mark? (.array [row, column]) = none ↔ ¬IsWord row ∨ ¬IsWord column := by
  have hbind : mark? (.array [row, column])
      = (word? row).bind fun row => (word? column).bind fun column => some ⟨row, column⟩ := by
    simp [mark?]
  rw [hbind]
  refine bind_eq_none_iff_or (word?_eq_none_iff _) fun row => ?_
  rw [← or_false (¬IsWord column)]
  exact bind_eq_none_iff_or (word?_eq_none_iff _) (by simp)

/-- A value is no mark exactly when something is wrong with it. -/
theorem mark?_eq_none_iff (v : Value) : mark? v = none ↔ SpoiledMark v := by
  constructor
  · intro h
    match v with
    | .object members =>
      rcases (mark?_object_eq_none_iff members).1 h with h | h
      · exact .row h
      · exact .column h
    | .array [row, column] =>
      rcases (mark?_list_eq_none_iff row column).1 h with h | h
      · exact .item List.mem_cons_self h
      · exact .item (List.mem_cons_of_mem _ List.mem_cons_self) h
    | .array [] | .array [_] => exact .length (by simp)
    | .array (_ :: _ :: _ :: rest) => exact .length (by simp)
    | .null | .bool _ | .number _ | .string _ => exact .shape (by simp) (by simp)
  · rintro (⟨ho, ha⟩ | h | h | h | ⟨hv, h⟩)
    · match v with
      | .object members => exact absurd rfl (ho members)
      | .array items => exact absurd rfl (ha items)
      | .null | .bool _ | .number _ | .string _ => rfl
    · exact (mark?_object_eq_none_iff _).2 (.inl h)
    · exact (mark?_object_eq_none_iff _).2 (.inr h)
    · unfold mark?
      split
      · next he => cases he
      · next he => cases he; simp at h
      · rfl
    · unfold mark?
      split
      · next he => cases he
      · next row column he =>
        cases he
        refine (mark?_list_eq_none_iff row column).2 ?_
        simp only [List.mem_cons, List.not_mem_nil, or_false] at hv
        rcases hv with rfl | rfl
        · exact .inl h
        · exact .inr h
      · rfl

/-! ### Findings -/

/-- The members for a text that may be missing: none at all, null, or the text. -/
inductive OptionalText (name : String) : Option String → List (String × Value) → Prop
  | absent : OptionalText name none []
  | null : OptionalText name none [(name, .null)]
  | given (s : String) : OptionalText name (some s) [(name, .string s)]

/-- The members of a finding. -/
def findingNames : List String := ["filename", "code", "message", "location", "end_location"]

/-- A finding as an object. -/
inductive Renders (f : Finding) : Value → Prop
  | mk {filename code members : List (String × Value)} {start stop : Value} :
      OptionalText "filename" f.filename filename → OptionalText "code" f.code code →
      RendersMark f.start start → RendersMark f.stop stop →
      Interspersed findingNames
        (filename ++ (code ++
          [("message", .string f.message), ("location", start), ("end_location", stop)]))
        members →
      Renders f (.object members)

/-- What may be wrong with a finding's members. -/
inductive SpoiledFinding (members : List (String × Value)) : Prop
  | filename : Spoiled "filename" false IsOptional members → SpoiledFinding members
  | code : Spoiled "code" false IsOptional members → SpoiledFinding members
  | message : Spoiled "message" true IsText members → SpoiledFinding members
  | start : Spoiled "location" true (¬SpoiledMark ·) members → SpoiledFinding members
  | stop : Spoiled "end_location" true (¬SpoiledMark ·) members → SpoiledFinding members

/-- The step that reads an optional text finds the one that its members write. -/
theorem OptionalText.read {name : String} {text : Option String}
    {own fields members : List (String × Value)} (h : OptionalText name text own)
    (hm : Interspersed findingNames fields members) (hn : name ∈ findingNames)
    (hown : membersNamed name fields = membersNamed name own) :
    (defaulted? name members).bind optional? = some text := by
  cases h with
  | absent =>
    have hv : defaulted? name members = some .null := hm.member?_eq hn (.inr ⟨hown, rfl⟩)
    rw [hv]
    rfl
  | null =>
    have hv : defaulted? name members = some .null :=
      hm.member?_eq hn (.inl (by rw [hown]; simp [membersNamed]))
    rw [hv]
    rfl
  | given s =>
    have hv : defaulted? name members = some (.string s) :=
      hm.member?_eq hn (.inl (by rw [hown]; simp [membersNamed]))
    rw [hv]
    rfl

theorem OptionalText.membersNamed_of_ne {name other : String} {text : Option String}
    {own : List (String × Value)} (h : OptionalText name text own) (hne : name ≠ other) :
    membersNamed other own = [] := by
  cases h <;> simp [membersNamed, hne]

/-- A finding's members are read one by one. -/
theorem finding?_object_eq (members : List (String × Value)) :
    finding? (.object members)
      = ((defaulted? "filename" members).bind optional?).bind fun filename =>
        ((defaulted? "code" members).bind optional?).bind fun code =>
        ((required? "message" members).bind string?).bind fun message =>
        ((required? "location" members).bind mark?).bind fun start =>
        ((required? "end_location" members).bind mark?).bind fun stop =>
          some { filename, code, message, start, stop } := by
  simp [finding?, Option.bind_assoc]

/-- **An object that renders a finding is read as that finding.** -/
theorem finding?_of_renders {f : Finding} {v : Value} (h : Renders f v) :
    finding? v = some f := by
  obtain @⟨filename, code, members, start, stop, hfile, hcode, hstart, hstop, hm⟩ := h
  -- neither of the two texts has a member with the name of a later one
  have named {name : String} (hf : "filename" ≠ name) (hc : "code" ≠ name)
      (rest : List (String × Value)) :
      membersNamed name (filename ++ (code ++ rest)) = membersNamed name rest := by
    rw [membersNamed_append, membersNamed_append, hfile.membersNamed_of_ne hf,
      hcode.membersNamed_of_ne hc]
    rfl
  have hmessage : required? "message" members = some (.string f.message) :=
    hm.member?_eq (by decide) (.inl (named (by decide) (by decide) _))
  have hlocation : required? "location" members = some start :=
    hm.member?_eq (by decide) (.inl (named (by decide) (by decide) _))
  have hend : required? "end_location" members = some stop :=
    hm.member?_eq (by decide) (.inl (named (by decide) (by decide) _))
  rw [finding?_object_eq, hfile.read hm (by decide) ?_, hcode.read hm (by decide) ?_, hmessage,
    hlocation, hend]
  · simp [string?, mark?_of_renders hstart, mark?_of_renders hstop]
  · rw [membersNamed_append, membersNamed_append, hfile.membersNamed_of_ne (by decide)]
    simp [membersNamed]
  · rw [membersNamed_append, membersNamed_append, hcode.membersNamed_of_ne (by decide)]
    simp [membersNamed]

/-- **An object is no finding exactly when something is wrong with one of its members.** -/
theorem finding?_eq_none_iff (members : List (String × Value)) :
    finding? (.object members) = none ↔ SpoiledFinding members := by
  have hoptional (name : String) : (defaulted? name members).bind optional? = none
      ↔ Spoiled name false IsOptional members :=
    member?_bind_eq_none_iff optional?_eq_none_iff fun v hv => by cases hv; exact .inl rfl
  have hmessage : (required? "message" members).bind string? = none
      ↔ Spoiled "message" true IsText members :=
    member?_bind_eq_none_iff string?_eq_none_iff (by simp)
  have hmark (name : String) : (required? name members).bind mark? = none
      ↔ Spoiled name true (¬SpoiledMark ·) members :=
    member?_bind_eq_none_iff (fun v => by rw [mark?_eq_none_iff, Classical.not_not]) (by simp)
  have hfields : finding? (.object members) = none
      ↔ Spoiled "filename" false IsOptional members ∨ Spoiled "code" false IsOptional members ∨
        Spoiled "message" true IsText members ∨
        Spoiled "location" true (¬SpoiledMark ·) members ∨
        Spoiled "end_location" true (¬SpoiledMark ·) members ∨ False := by
    rw [finding?_object_eq]
    refine bind_eq_none_iff_or (hoptional _) fun _ => ?_
    refine bind_eq_none_iff_or (hoptional _) fun _ => ?_
    refine bind_eq_none_iff_or hmessage fun _ => ?_
    refine bind_eq_none_iff_or (hmark _) fun _ => ?_
    exact bind_eq_none_iff_or (hmark _) (by simp)
  rw [hfields]
  constructor
  · rintro (h | h | h | h | h | h)
    · exact .filename h
    · exact .code h
    · exact .message h
    · exact .start h
    · exact .stop h
    · exact h.elim
  · rintro (h | h | h | h | h) <;> simp [h]

end LintHost.Report
