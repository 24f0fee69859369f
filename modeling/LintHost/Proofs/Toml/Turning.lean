/-
LintHost/Proofs/Toml/Turning.lean

What changes in a document where a truth value is set.  The value under a key of the root table is
one piece of the document, so the new document differs from the old one, as both are written, in
one line: all behind the equals sign of the key gives way to the new value, or a line is added
behind the values of the root table (`turnsLine_setRoot`).  Only the comments behind the old value
are lost (`TurnsLine.comments`).
-/
import LintHost.Proofs.Toml.Comments
import LintHost.Proofs.Toml.Flags

namespace LintHost.Toml

/-! ### One line -/

/-- The line of a key of the root table, with what stands before it, and what is given behind the
equals sign. -/
def lineOf (key : Key) (right : List Token) : List Token :=
  pathTokens [key] ++ .char '=' :: right ++ [.newline]

/-- The tokens of a truth value. -/
def wordOf (on : Bool) : List Token :=
  plainTokens (if on then "true" else "false")

/-- Whether tokens end with a line end, if there are any. -/
def WholeLines (ts : List Token) : Prop :=
  ts = [] ∨ ts.getLast? = some .newline

/-- How tokens change where a truth value is set under a key of the root table: on the line of the
key all behind the equals sign gives way to the new value, or a line is added.  The comments behind
the old value are lost. -/
inductive TurnsLine (name : String) (on : Bool) :
    (old new : List Token) → (lost : List (List Char)) → Prop where
  | turned {front before tail behind : List Token} {key : Key} (was : Bool)
      (hname : key.name = name) (hfront : WholeLines front)
      (hbefore : before.all Token.isBlank = true) (htail : Statement.isTail tail = true) :
      TurnsLine name on (front ++ lineOf key (before ++ wordOf was ++ tail) ++ behind)
        (front ++ lineOf key (flagTokens on) ++ behind) (comments tail)
  | added {front behind : List Token} (hfront : WholeLines front) :
      TurnsLine name on (front ++ behind)
        (front ++ lineOf (Key.plain name) (flagTokens on) ++ behind) []

theorem comments_wordOf (on : Bool) : comments (wordOf on) = [] :=
  comments_chars _

theorem comments_flagTokens (on : Bool) : comments (flagTokens on) = [] :=
  comments_chars _

/-- The comments that are lost stood between those that are left. -/
theorem TurnsLine.comments {name : String} {on : Bool} {old new : List Token}
    {lost : List (List Char)} (h : TurnsLine name on old new lost) :
    ∃ a b, Toml.comments old = a ++ lost ++ b ∧ Toml.comments new = a ++ b := by
  cases h with
  | @turned front before tail behind key was _ _ hbefore =>
    refine ⟨Toml.comments (front ++ pathTokens [key]), Toml.comments behind, ?_, ?_⟩
    · simp [lineOf, comments_of_blank hbefore, comments_wordOf]
    · simp [lineOf, comments_flagTokens]
  | @added front behind =>
    have hplain : Toml.comments (pathTokens [Key.plain name]) = [] := by
      simp [pathTokens, dotted, Key.plain, plainTokens]
    exact ⟨Toml.comments front, Toml.comments behind, by simp,
      by simp [lineOf, hplain, comments_flagTokens]⟩

/-- The comments that are left and the lost ones are all there were. -/
theorem TurnsLine.perm {name : String} {on : Bool} {old new : List Token}
    {lost : List (List Char)} (h : TurnsLine name on old new lost) :
    (Toml.comments new ++ lost).Perm (Toml.comments old) := by
  obtain ⟨a, b, hold, hnew⟩ := h.comments
  rw [hold, hnew, List.append_assoc, List.append_assoc]
  exact List.Perm.append_left a List.perm_append_comm

/-- The comments are as many as before, and so in a given order, only if none was lost. -/
theorem TurnsLine.comments_eq_iff {name : String} {on : Bool} {old new : List Token}
    {lost cs : List (List Char)} (h : TurnsLine name on old new lost)
    (hp : (Toml.comments old).Perm cs) :
    Toml.comments new = cs ↔ lost = [] ∧ Toml.comments old = cs := by
  have hsame : lost = [] → Toml.comments new = Toml.comments old := by
    rintro rfl
    obtain ⟨a, b, hold, hnew⟩ := h.comments
    rw [hold, hnew, List.append_nil]
  constructor
  · intro heq
    have hlength := (h.perm.trans hp).length_eq
    rw [List.length_append, heq] at hlength
    have hlost : lost = [] := List.length_eq_zero_iff.1 (by omega)
    exact ⟨hlost, (hsame hlost).symm.trans heq⟩
  · rintro ⟨hlost, heq⟩
    exact (hsame hlost).trans heq

/-! ### Truth values on a line -/

theorem eq_of_ofWord? {word : List Char} {was : Bool}
    (h : Value.ofWord? word = some (.boolean was)) : word.map Token.char = wordOf was := by
  unfold Value.ofWord? at h
  split_ifs at h with ht hf hd
  · cases h
    rw [ht]
    rfl
  · cases h
    rw [hf]
    rfl
  · cases h
  · split at h <;> simp at h

/-- A truth value is read from its word. -/
theorem wordOf_of_readValue {depth : Nat} {ts rest : List Token} {l : Literal} {was : Bool}
    (h : readValue depth ts = some (l, rest)) (hl : l.value = .boolean was) :
    ts = wordOf was ++ rest := by
  unfold readValue at h
  split at h
  · cases h
    cases hl
  · obtain ⟨p, -, h⟩ := Option.bind_eq_some_iff.1 h
    cases h
    cases hl
  · obtain ⟨p, -, h⟩ := Option.bind_eq_some_iff.1 h
    obtain ⟨table, htable, h⟩ := Option.bind_eq_some_iff.1 h
    obtain ⟨ms, -, e⟩ := Option.bind_eq_some_iff.1 htable
    cases h
    cases e
    cases hl
  · -- only a word can be a truth value
    have hword : ∃ word, Value.ofWord? word = some l.value ∧ l.tokens = word.map Token.char := by
      obtain ⟨v, hv, e⟩ := Option.bind_eq_some_iff.1 h
      cases e
      exact ⟨_, hv, rfl⟩
    obtain ⟨word, hv, htokens⟩ := hword
    obtain ⟨-, -, hts⟩ := isWord_of_readWord h
    rw [hl] at hv
    rw [hts, htokens, eq_of_ofWord? hv]

/-- A truth value on a line stands between blanks and the end of the line. -/
theorem Lined.boolean {was : Bool} {right : List Token} (h : Lined (.boolean was) right) :
    ∃ before tail, right = before ++ wordOf was ++ tail ∧ before.all Token.isBlank = true ∧
      Statement.isTail tail = true := by
  obtain @⟨before, tokens, tail, hb, hs, ht⟩ := h
  obtain ⟨l, hl, halike⟩ := hs.again [] (LineEnd.ends ⟨rfl, trivial⟩)
  have hv : l.value = .boolean was := (alike_scalar (by simp) (by simp)).1 halike
  have htokens := wordOf_of_readValue hl hv
  rw [List.append_nil, List.append_nil] at htokens
  exact ⟨before, tail, by rw [← htokens], hb, ht.tail⟩

/-! ### Setting a truth value -/

theorem leavesOf_concat (path : List Key) (a b : Members) :
    leavesOf path (a ++ b) = leavesOf path a ++ leavesOf path b := by
  rw [leavesOf_eq, leavesOf_eq, leavesOf_eq, List.flatMap_append]

/-- A value is no section. -/
theorem sections_setFlag {name : String} {on : Bool} {ms : Members}
    (h : ∀ n, node? name ms = some n → ∃ v right, n = .value v right) :
    sections (setFlag name on ms) = sections ms := by
  have hsame : sectionsOf [] (setFlag name on ms) = sectionsOf [] ms := by
    rcases hm : member? name ms with - | ⟨key, node⟩
    · rw [setFlag_of_none hm, put_of_none hm, sectionsOf_eq, sectionsOf_eq, List.flatMap_append]
      exact List.append_nil _
    · obtain ⟨v, right, rfl⟩ := h node (by rw [node?, hm]; rfl)
      rw [setFlag_of_some hm]
      obtain ⟨before, after, rfl, hput⟩ := put_of_some hm
      rw [hput, sectionsOf_eq, sectionsOf_eq]
      simp only [List.flatMap_append, List.flatMap_cons]
      rfl
  rw [sections, sections, hsame]

/-- The values among members, each on lines of its own. -/
def valueLines (ms : Members) : List Token :=
  ((leavesOf [] ms).map assignmentTokens).flatMap (· ++ [.newline])

theorem valueLines_append (a b : Members) : valueLines (a ++ b) = valueLines a ++ valueLines b := by
  rw [valueLines, leavesOf_concat, List.map_append, List.flatMap_append]
  rfl

theorem valueLines_value (key : Key) (v : Value) (right : List Token) :
    valueLines [(key, .value v right)] = lineOf key right := by
  simp [valueLines, leavesOf, Node.leaves, assignmentTokens, lineOf]

theorem wholeLines_valueLines (ms : Members) : WholeLines (valueLines ms) := by
  rw [valueLines]
  rcases List.eq_nil_or_concat' ((leavesOf [] ms).map assignmentTokens) with e | ⟨init, last, e⟩
  · rw [e]
    exact Or.inl rfl
  · rw [e, List.flatMap_append, List.flatMap_singleton, ← List.append_assoc]
    exact Or.inr List.getLast?_concat

/-- A document is the values of its root table, its sections, and what stands behind them. -/
theorem Document.tokens_eq_lines (d : Document) : d.tokens = valueLines d.members
    ++ (((sections d.members).flatMap Section.pieces).flatMap (· ++ [.newline]) ++ d.rest) := by
  rw [d.tokens_eq, Document.pieces, List.flatMap_append, List.append_assoc]
  rfl

/-- A document that can be read again is told apart into its tokens. -/
theorem Document.Sound.clear_tokens {d : Document} (h : d.Sound) : Clear d.tokens := by
  rw [d.tokens_eq]
  exact clear_lines h.pieces h.clear

/-- Setting a truth value turns one line over or adds one. -/
theorem turnsLine_setRoot {d : Document} (h : d.Sound) {name : String}
    (hvalue : ∀ n, node? name d.members = some n → ∃ was right, n = .value (.boolean was) right)
    (on : Bool) : ∃ lost, TurnsLine name on d.tokens (d.setRoot name on).tokens lost := by
  have hsections : sections (setFlag name on d.members) = sections d.members :=
    sections_setFlag fun n hn => by
      obtain ⟨was, right, rfl⟩ := hvalue n hn
      exact ⟨_, right, rfl⟩
  have hnew := (d.setRoot name on).tokens_eq_lines
  have hmembers : (d.setRoot name on).members = setFlag name on d.members := rfl
  have hrest : (d.setRoot name on).rest = d.rest := rfl
  rw [hmembers, hsections, hrest] at hnew
  rw [hnew, d.tokens_eq_lines]
  rcases hm : member? name d.members with - | ⟨key, node⟩
  · -- the new value comes behind those of the root table
    rw [setFlag_of_none hm, put_of_none hm, valueLines_append, Node.flag, valueLines_value]
    exact ⟨[], .added (wholeLines_valueLines _)⟩
  · obtain ⟨was, right, rfl⟩ := hvalue node (by rw [node?, hm]; rfl)
    obtain ⟨hname, hmem⟩ := member?_eq_some hm
    obtain ⟨-, -, -, hlined⟩ := h.members.sound _ hmem
    obtain ⟨before, tail, rfl, hbefore, htail⟩ := hlined.boolean
    rw [setFlag_of_some hm]
    obtain ⟨front, behind, hms, hput⟩ := put_of_some hm
    -- before and after, the line of the key stands between those of the same members
    have hsplit : ∀ node, valueLines (front ++ (key, node) :: behind)
        = valueLines front ++ valueLines [(key, node)] ++ valueLines behind := fun node => by
      rw [← List.singleton_append, valueLines_append, valueLines_append, List.append_assoc]
    rw [hput, hms, hsplit, hsplit, Node.flag, valueLines_value, valueLines_value,
      List.append_assoc _ (valueLines behind), List.append_assoc _ (valueLines behind)]
    exact ⟨_, .turned was hname (wholeLines_valueLines _) hbefore htail⟩

end LintHost.Toml
