/-
LintHost/Proofs/Toml/Comments.lean

Where the comments of a document go.  A comment stands before a statement or behind it, or
between the parts of an array or an inline table.  Reading a value, a statement or a whole
document keeps every comment at one part of what is read, and writing it takes each comment from
there again: what is written has the comments that were read, though maybe in another order
(`comments_readValue`, `Statement.comments_read`, `comments_add`, `Document.Sound.comments`).

In a tree, a comment belongs to the value or the header by which it stands.  All steps that build
a tree put a member in the place of one, and so add the comments that this member has more than
the old one (`flatMap_put`).
Main fact: a document has the comments of the text it was read from (`comments_read_perm`).
-/
import LintHost.Proofs.Toml.RoundTrip
import Mathlib.Data.List.Perm.Basic

namespace LintHost.Toml

/-! ### Comments of tokens -/

/-- The comments in a row of tokens, in order. -/
def comments (ts : List Token) : List (List Char) :=
  ts.filterMap fun
    | .comment text => some text
    | _ => none

@[simp] theorem comments_nil : comments [] = [] := rfl

@[simp] theorem comments_char (c : Char) (ts : List Token) :
    comments (.char c :: ts) = comments ts := rfl

@[simp] theorem comments_newline (ts : List Token) : comments (.newline :: ts) = comments ts := rfl

@[simp] theorem comments_append (a b : List Token) :
    comments (a ++ b) = comments a ++ comments b :=
  List.filterMap_append

theorem comments_eq_nil {ts : List Token} (h : ∀ t ∈ ts, ∀ text, t ≠ .comment text) :
    comments ts = [] := by
  rw [comments, List.filterMap_eq_nil_iff]
  intro t ht
  split
  · next text => exact absurd rfl (h _ ht text)
  · rfl

theorem comments_of_blank {ts : List Token} (h : ts.all Token.isBlank = true) :
    comments ts = [] :=
  comments_eq_nil fun t ht text e => by
    have hb := List.all_eq_true.1 h t ht
    rw [e] at hb
    cases hb

@[simp] theorem comments_chars (cs : List Char) : comments (cs.map Token.char) = [] :=
  comments_eq_nil fun t ht text e => by
    obtain ⟨c, -, rfl⟩ := List.mem_map.1 ht
    cases e

theorem comments_takeKind (kind : Token → Bool) (ts : List Token) :
    comments (ts.takeWhile kind) ++ comments (ts.dropWhile kind) = comments ts := by
  rw [← comments_append, List.takeWhile_append_dropWhile]

/-- Where no comment stands between pieces, each one stands in one of them. -/
theorem comments_joinWith {sep : List Token} (hs : comments sep = []) (pieces : List (List Token)) :
    comments (Text.joinWith sep pieces) = pieces.flatMap comments := by
  induction pieces with
  | nil => rfl
  | cons piece pieces ih =>
    cases pieces with
    | nil => simp [Text.joinWith]
    | cons next more =>
      rw [Text.joinWith, List.flatMap_cons, ← ih]
      · simp [hs]
      · simp

theorem comments_lines (pieces : List (List Token)) :
    comments (pieces.flatMap (· ++ [.newline])) = pieces.flatMap comments := by
  induction pieces with
  | nil => rfl
  | cons piece pieces ih => simp [ih]

/-! ### Comments of paths and assignments -/

/-- The comments around a path that a key ends. -/
def Key.comments (k : Key) : List (List Char) :=
  Toml.comments k.lead ++ Toml.comments k.gap

/-- The comments of an assignment: those around its path, and those behind the equals sign. -/
def entryComments (e : List Key × Literal) : List (List Char) :=
  (e.1.getLast?.elim [] Key.comments) ++ comments e.2.tokens

theorem entryComments_cons (key next : Key) (path : List Key) (right : Literal) :
    entryComments (key :: next :: path, right) = entryComments (next :: path, right) := by
  rw [entryComments, entryComments, List.getLast?_cons_cons]

/-- Labels, blanks and dots are no comments. -/
theorem comments_of_labels {ts : List Token}
    (h : ∀ t ∈ ts, t.isLabel = true ∨ t.isBlank = true ∨ t = .char '.') : comments ts = [] :=
  comments_eq_nil fun t ht text e => by
    subst e
    rcases h _ ht with h | h | h <;> cases h

/-- The comments in what was read as a path are around it. -/
theorem PathIn.comments {margin : Token → Bool} {label : List Token} {path : List Key}
    (h : PathIn margin label path) :
    Toml.comments label = path.getLast?.elim [] Key.comments := by
  obtain ⟨last, inner, hlast, rfl, -, -, -, -, hinner⟩ := h.fringe
  rw [hlast, comments_append, comments_append, comments_of_labels hinner, List.append_nil]
  rfl

/-- What is written for an assignment has its comments. -/
theorem comments_assignmentTokens {e : List Key × Literal} (h : ∀ k ∈ e.1, k.Legible) :
    comments (assignmentTokens e) = entryComments e := by
  rw [assignmentTokens, entryComments, comments_append, comments_char]
  congr 1
  cases hlast : e.1.getLast? with
  | none => rw [pathTokens, hlast]; rfl
  | some last =>
    have hdotted : comments (dotted e.1) = [] := comments_of_labels fun t => mem_dotted h
    rw [pathTokens_of_getLast? hlast, comments_append, comments_append, hdotted, List.append_nil]
    rfl

/-! ### Comments of a tree -/

/-- The comments by a header. -/
def Heading.comments (h : Heading) : List (List Char) :=
  Toml.comments h.lead ++ Toml.comments h.tail

mutual

/-- The comments by a member and by what is in it. -/
def Node.comments (key : Key) : Node → List (List Char)
  | .value _ right => key.comments ++ Toml.comments right
  | .table origin members => headed origin ++ commentsOf members
  | .tables (heading, newest) older =>
    heading.comments ++ commentsOf newest ++ olderComments older
where
  /-- The comments by the header of a table, if it has one. -/
  headed : Origin → List (List Char)
    | .header heading => heading.comments
    | .implied | .dotted => []

/-- The comments by members and by what is in them. -/
def commentsOf : List (Key × Node) → List (List Char)
  | [] => []
  | (key, node) :: rest => node.comments key ++ commentsOf rest

/-- The comments by the tables of an array and by what is in them. -/
def olderComments : List (Heading × List (Key × Node)) → List (List Char)
  | [] => []
  | (heading, members) :: rest => heading.comments ++ commentsOf members ++ olderComments rest

end

theorem commentsOf_eq (ms : Members) : commentsOf ms = ms.flatMap fun m => m.2.comments m.1 := by
  induction ms with
  | nil => rfl
  | cons m ms ih => rw [commentsOf, ih, List.flatMap_cons]

/-- The comments by one of the tables of an array. -/
def elementComments (e : Heading × Members) : List (List Char) :=
  e.1.comments ++ commentsOf e.2

theorem comments_tables (key : Key) (newest : Heading × Members)
    (older : List (Heading × Members)) :
    (Node.tables newest older).comments key = (newest :: older).flatMap elementComments := by
  have holder : olderComments older = older.flatMap elementComments := by
    induction older with
    | nil => rfl
    | cons e older ih => rw [olderComments, ih, List.flatMap_cons, elementComments]
  rw [Node.comments, holder, List.flatMap_cons, elementComments]

/-! ### Building a tree -/

/-- What one member brings more than the old one is all that changes when it is put. -/
theorem flatMap_put {α : Type} {f : Key × Node → List α} {name : String} {ms : Members}
    {m : Key × Node} {more : List α}
    (h : (f m).Perm (more ++ ((member? name ms).map f).getD [])) :
    ((put name m ms).flatMap f).Perm (more ++ ms.flatMap f) := by
  rcases hm : member? name ms with - | old
  · rw [hm, Option.map_none, Option.getD_none, List.append_nil] at h
    rw [put_of_none hm, List.flatMap_append, List.flatMap_singleton]
    exact (List.Perm.append_left _ h).trans List.perm_append_comm
  · rw [hm, Option.map_some, Option.getD_some] at h
    obtain ⟨before, after, rfl, hput⟩ := put_of_some hm
    simp only [hput, List.flatMap_append, List.flatMap_cons]
    have hmiddle := List.Perm.append_right (after.flatMap f) h
    rw [List.append_assoc] at hmiddle
    exact (List.Perm.append_left _ hmiddle).trans (List.perm_append_comm_assoc _ _ _)

/-- Whether a change of members adds some comments. -/
def Adds (more : List (List Char)) (change : Change) : Prop :=
  ∀ ms ms', change ms = some ms' → (commentsOf ms').Perm (more ++ commentsOf ms)

/-- A change of one member adds the comments that the new one has more than the old one. -/
theorem adds_adjust {name : String} {f : Option (Key × Node) → Option (Key × Node)}
    {more : List (List Char)} (h : ∀ old m, f old = some m →
      (m.2.comments m.1).Perm (more ++ (old.map fun m => m.2.comments m.1).getD [])) :
    Adds more (adjust name f) := by
  intro ms ms' hms
  rw [adjust_eq] at hms
  obtain ⟨m, hf, rfl⟩ := Option.map_eq_some_iff.1 hms
  rw [commentsOf_eq, commentsOf_eq]
  exact flatMap_put (h _ _ hf)

/-- What is added in a node is added to it. -/
theorem comments_withInner {n : Node} {ms ms' : Members} {more : List (List Char)}
    (hi : n.inner? = some ms) (h : (commentsOf ms').Perm (more ++ commentsOf ms)) (key : Key) :
    ((n.withInner ms').comments key).Perm (more ++ n.comments key) := by
  rcases n with _ | ⟨origin, _⟩ | ⟨⟨heading, _⟩, older⟩
  · cases hi
  · cases hi
    exact (h.append_left _).trans (List.perm_append_comm_assoc _ _ _)
  · cases hi
    have hnewest := (h.append_left heading.comments).trans (List.perm_append_comm_assoc _ _ _)
    have := hnewest.append_right (olderComments older)
    simpa only [Node.withInner, Node.comments, List.append_assoc] using this

/-- An assignment adds its comments. -/
theorem adds_define (v : Value) (right : List Token) (path : List Key) :
    Adds (entryComments (path, ⟨v, right⟩)) (define v right path) := by
  induction path with
  | nil => rintro ms ms' ⟨⟩
  | cons key path ih =>
    cases path with
    | nil =>
      rw [define]
      refine adds_adjust fun old m hf => ?_
      cases old <;> cases hf
      simp [Node.comments, entryComments]
    | cons next path =>
      rw [define, entryComments_cons]
      refine adds_adjust fun old m hf => ?_
      rcases old with - | ⟨k, _ | ⟨_ | _ | _, inner⟩ | ⟨⟨heading, newest⟩, older⟩⟩
      · obtain ⟨inner, hd, rfl⟩ := Option.map_eq_some_iff.1 hf
        exact ih _ _ hd
      · cases hf
      · -- the table is no longer only implied, which says nothing of its comments
        obtain ⟨inner', hd, rfl⟩ := Option.map_eq_some_iff.1 hf
        exact ih _ _ hd
      · obtain ⟨inner', hd, rfl⟩ := Option.map_eq_some_iff.1 hf
        exact ih _ _ hd
      · cases hf
      · simp only at hf
        split at hf
        · cases hf
        · obtain ⟨newest', hd, rfl⟩ := Option.map_eq_some_iff.1 hf
          exact comments_withInner (n := .tables (heading, newest) older) rfl (ih _ _ hd) k

/-- A change adds behind a header what it adds where it is made. -/
theorem Adds.within {more : List (List Char)} {change : Change} (h : Adds more change)
    (header : List Key) : Adds more (within header change) := by
  induction header with
  | nil => exact h
  | cons key header ih =>
    intro ms ms' hw
    obtain ⟨hm, inner', hc, rfl⟩ | ⟨k, n, inner, inner', hm, hi, hc, rfl⟩ :=
      behindHeader_eq_some hw
    · -- the key is new, and brings an implied table
      rw [commentsOf_eq, commentsOf_eq]
      apply flatMap_put
      rw [hm]
      exact ih _ _ hc
    · rw [commentsOf_eq, commentsOf_eq]
      apply flatMap_put
      rw [hm]
      exact comments_withInner hi (ih _ _ hc) k

theorem adds_setUp (heading : Heading) (key : Key) : Adds heading.comments (setUp heading key) := by
  refine adds_adjust fun old m hf => ?_
  rcases old with - | ⟨k, _ | ⟨_ | _ | _, inner⟩ | ⟨newest, older⟩⟩ <;> cases hf
  · simp [Node.comments, Node.comments.headed, commentsOf]
  · simp [Node.comments, Node.comments.headed]

theorem adds_appendNew (heading : Heading) (key : Key) :
    Adds heading.comments (appendNew heading key) := by
  refine adds_adjust fun old m hf => ?_
  rcases old with - | ⟨k, _ | ⟨_, _⟩ | ⟨newest, older⟩⟩ <;> cases hf
  · simp [comments_tables, elementComments, commentsOf]
  · simp [comments_tables, elementComments, commentsOf]

/-- A header adds the comments by it. -/
theorem adds_openTable (repeated : Bool) (heading : Heading) (path : List Key) :
    Adds heading.comments (openTable repeated heading path) := by
  unfold openTable
  cases path.getLast? with
  | none => rintro ms ms' ⟨⟩
  | some key =>
    refine Adds.within ?_ _
    cases repeated
    · exact adds_setUp heading key
    · exact adds_appendNew heading key

theorem adds_defineAll (es : List (List Key × Literal)) :
    Adds (es.flatMap entryComments) (defineAll es) := by
  induction es with
  | nil =>
    rintro ms ms' ⟨⟩
    exact List.Perm.refl _
  | cons e es ih =>
    intro ms ms' hd
    obtain ⟨middle, he, hd⟩ := Option.bind_eq_some_iff.1 hd
    have hfirst := (adds_define e.2.value e.2.tokens e.1 _ _ he).append_left
      (es.flatMap entryComments)
    rw [List.flatMap_cons, List.append_assoc]
    exact ((ih _ _ hd).trans hfirst).trans (List.perm_append_comm_assoc _ _ _)

/-- The comments of a statement. -/
def Statement.comments : Statement → List (List Char)
  | header lead _ _ tail => Toml.comments lead ++ Toml.comments tail
  | assignment path right => entryComments (path, right)

/-- A statement adds its comments to a document. -/
theorem comments_add {st st' : Document.State} {x : Statement} (h : st.add x = some st') :
    (commentsOf st'.members).Perm (x.comments ++ commentsOf st.members) := by
  cases x with
  | header lead repeated path tail =>
    obtain ⟨ms, ho, e⟩ := Option.bind_eq_some_iff.1 h
    cases e
    exact adds_openTable repeated ⟨st.place, lead, tail⟩ path _ _ ho
  | assignment path right =>
    obtain ⟨ms, hw, e⟩ := Option.bind_eq_some_iff.1 h
    cases e
    exact (adds_define right.value right.tokens path).within st.header _ _ hw

/-- Statements that are added in turn add their comments. -/
theorem comments_run {xs : List Statement} {st st' : Document.State}
    (h : xs.foldlM Document.State.add st = some st') :
    (commentsOf st'.members).Perm (xs.flatMap Statement.comments ++ commentsOf st.members) := by
  induction xs generalizing st with
  | nil =>
    cases h
    exact List.Perm.refl _
  | cons x xs ih =>
    obtain ⟨middle, ha, h⟩ := Option.bind_eq_some_iff.1 h
    have hx := (comments_add ha).append_left (xs.flatMap Statement.comments)
    rw [List.flatMap_cons, List.append_assoc]
    exact ((ih h).trans hx).trans (List.perm_append_comm_assoc _ _ _)

/-! ### Writing a tree -/

/-- The comments of a section: those by its header, and those by its values. -/
def sectionComments (sec : Section) : List (List Char) :=
  sec.heading.comments ++ (leavesOf [] sec.members).flatMap entryComments

/-- The comments by values do not depend on where their paths start. -/
theorem comments_leaves (n : Node) (path : List Key) (key : Key) :
    (n.leaves (path ++ [key])).flatMap entryComments
      = (n.leaves [key]).flatMap entryComments := by
  have hkey : n.leaves [key] = (n.leaves []).map fun e => ([key] ++ e.1, e.2) := by
    rw [← Node.leaves_append, List.append_nil]
  rw [Node.leaves_append, hkey, List.map_map, List.flatMap_map, List.flatMap_map]
  refine List.flatMap_congr fun e _ => ?_
  simp [entryComments, List.getLast?_cons]

theorem comments_leavesOf (path : List Key) (ms : Members) :
    (leavesOf path ms).flatMap entryComments = (leavesOf [] ms).flatMap entryComments := by
  rw [leavesOf_eq, leavesOf_eq, List.flatMap_assoc, List.flatMap_assoc]
  exact List.flatMap_congr fun m _ => by rw [comments_leaves, comments_leaves]

/-- If what is written of each member has its comments, so has what is written of all. -/
theorem perm_of_members {ms : Members} (path : List Key)
    (h : ∀ m ∈ ms, ∀ path, (m.2.comments m.1).Perm ((m.2.leaves [m.1]).flatMap entryComments
      ++ (m.2.sections path).flatMap sectionComments)) :
    (commentsOf ms).Perm ((leavesOf [] ms).flatMap entryComments
      ++ (sectionsOf path ms).flatMap sectionComments) := by
  rw [commentsOf_eq, leavesOf_eq, sectionsOf_eq, List.flatMap_assoc, List.flatMap_assoc]
  exact (List.Perm.flatMap_left _ fun m hm => h m hm _).trans
    (List.flatMap_append_perm _ _ _).symm

section Writing

variable {M : Marks} {s : Site}

/-- A member is written with the comments by it. -/
theorem Node.Sound.comments {n : Node} {key : Key} (h : n.Sound M s key) (path : List Key) :
    (n.comments key).Perm ((n.leaves [key]).flatMap entryComments
      ++ (n.sections path).flatMap sectionComments) := by
  induction n using Node.members_induction generalizing s key path with
  | value v right => simp [Node.comments, Node.leaves, Node.sections, entryComments]
  | table origin ms ih =>
    have hinner : MembersSound M (s.inside (.table origin ms)) ms := h.inner rfl
    have hms := perm_of_members path fun m hm path => ih m hm (hinner.sound m hm) path
    rcases origin with _ | _ | heading
    · -- an implied table has no values of its own
      have hleaves : leavesOf [] ms = [] := by
        rw [leavesOf_eq, List.flatMap_eq_nil_iff]
        intro m hm
        have hs := hinner.sound m hm
        rcases hn : m.2 with _ | ⟨_ | _ | _, _⟩ | _ <;> rw [hn] at hs
        · exact absurd hs.1 (by simp [Site.inside])
        · rfl
        · exact absurd hs.1 (by simp [Site.inside])
        · rfl
        · rfl
      rw [hleaves] at hms
      exact hms
    · rw [← comments_leavesOf [key]] at hms
      exact hms
    · have := hms.append_left heading.comments
      simpa [Node.comments, Node.comments.headed, Node.leaves, Node.sections, sectionOf?,
        sectionComments] using this
  | tables newest older ih =>
    obtain ⟨-, -, he, -⟩ := sound_tables.1 h
    rw [comments_tables, sections_tables, List.flatMap_assoc]
    simp only [Node.leaves, List.flatMap_nil, List.nil_append]
    refine List.Perm.flatMap_left _ fun e hmem => ?_
    have hms := perm_of_members path fun m hm path => ih e hmem m hm ((he e hmem).2.sound m hm) path
    have := hms.append_left e.1.comments
    simpa [elementComments, elementSections, sectionComments] using this

/-- Members are written with the comments by them. -/
theorem MembersSound.comments {ms : Members} (h : MembersSound M s ms) (path : List Key) :
    (commentsOf ms).Perm ((leavesOf [] ms).flatMap entryComments
      ++ (sectionsOf path ms).flatMap sectionComments) :=
  perm_of_members path fun m hm path => (h.sound m hm).comments path

end Writing

/-- A section is written with its comments. -/
theorem SectionSound.comments {depth : Nat} {sec : Section}
    (h : SectionSound lineMarks depth sec.path sec) :
    sec.pieces.flatMap Toml.comments = sectionComments sec := by
  obtain ⟨last, hlast, hf⟩ := h.legible.last
  have hpath : Toml.comments (pathTokens sec.path) = [] := by
    rw [pathTokens_of_getLast? hlast]
    simp [comments_of_blank hf.lead, comments_of_blank hf.gap,
      comments_of_labels fun t => mem_dotted h.legible.legible]
  have hbrackets : ∀ c, Toml.comments (brackets sec.repeated c) = [] := fun c =>
    comments_eq_nil fun t ht text e => by
      rw [e] at ht
      cases List.eq_of_mem_replicate ht
  obtain ⟨depth, hms⟩ := h.members
  have hvalues : (leavesOf [] sec.members).flatMap (Toml.comments ∘ assignmentTokens)
      = (leavesOf [] sec.members).flatMap entryComments :=
    List.flatMap_congr fun e he => comments_assignmentTokens (hms.leaf he).1.legible
  rw [Section.pieces, sectionComments, ← hvalues]
  simp [Section.headTokens, hpath, hbrackets, Heading.comments, List.flatMap_map,
    Function.comp_def]

/-- A document is written with the comments of its tree and of what stands behind it. -/
theorem Document.Sound.comments {d : Document} (h : d.Sound) :
    (Toml.comments d.tokens).Perm (commentsOf d.members ++ Toml.comments d.rest) := by
  have hvalues : ((leavesOf [] d.members).map assignmentTokens).flatMap Toml.comments
      = (leavesOf [] d.members).flatMap entryComments := by
    rw [List.flatMap_map]
    exact List.flatMap_congr fun e he => comments_assignmentTokens (h.members.leaf he).1.legible
  have hsections : ((sections d.members).flatMap Section.pieces).flatMap Toml.comments
      = (sections d.members).flatMap sectionComments := by
    rw [List.flatMap_assoc]
    exact List.flatMap_congr fun sec hsec =>
      (h.section ((sections_perm _).mem_iff.1 hsec)).comments
  rw [d.tokens_eq, comments_append, comments_lines, Document.pieces, List.flatMap_append, hvalues,
    hsections]
  refine List.Perm.append_right _ (List.Perm.trans ?_ (h.members.comments []).symm)
  exact ((sections_perm d.members).flatMap_right sectionComments).append_left _

/-! ### Reading values -/

/-- The tokens that write a value have the comments of those that were read for it, and the
comments behind it are left. -/
def KeepsComments (depth : Nat) : Prop :=
  ∀ {ts rest : List Token} {l : Literal}, Clear ts → readValue depth ts = some (l, rest) →
    (comments l.tokens ++ comments rest).Perm (comments ts)

theorem comments_readWord {ts rest : List Token} {l : Literal}
    (h : readWord ts = some (l, rest)) : comments l.tokens ++ comments rest = comments ts := by
  obtain ⟨word, hword, rfl⟩ := isWord_of_readWord h
  exact (comments_append _ _).symm

/-- A value between gaps is written with them. -/
theorem comments_padded {depth : Nat} (hk : KeepsComments depth) {ts rest ts' : List Token}
    {l : Literal} {c : Char} (hc : Clear ts)
    (h : readValue depth (ts.dropWhile Token.isGap) = some (l, rest))
    (hr : rest.dropWhile Token.isGap = .char c :: ts') :
    (comments (ts.takeWhile Token.isGap ++ l.tokens ++ rest.takeWhile Token.isGap)
      ++ comments ts').Perm (comments ts) := by
  have hvalue := (hk (hc.of_suffix (List.dropWhile_suffix _)) h).append_left
    (comments (ts.takeWhile Token.isGap))
  rw [comments_takeKind] at hvalue
  have hrest := comments_takeKind Token.isGap rest
  rw [hr, comments_char] at hrest
  simpa [← hrest] using hvalue

/-- The items of an array are written with their comments. -/
theorem comments_readItems {depth fuel : Nat} (hk : KeepsComments depth)
    {ts rest tokens : List Token} {vs : List Value} (hc : Clear ts)
    (h : readItems (readValue depth) fuel ts = some ((vs, tokens), rest)) :
    (comments tokens ++ comments rest).Perm (comments ts) := by
  induction fuel generalizing ts vs tokens with
  | zero => cases h
  | succ fuel ih =>
    rw [readItems] at h
    simp only [takeKind] at h
    split at h
    · next ts' hdrop =>
      -- the array ends before another item
      cases h
      rw [← comments_takeKind Token.isGap ts, hdrop]
      simp
    · simp only [Option.bind_eq_bind, Option.bind_eq_some_iff, Prod.exists] at h
      obtain ⟨l, after, hl, h⟩ := h
      split at h
      · next ts' hdrop =>
        -- a comma follows, and more items may
        have hitem := comments_padded hk hc hl hdrop
        have hsuffix := (padded_of_readValue (steady_of_readValue depth) hc hl hdrop).2
        obtain ⟨⟨⟨vs', more⟩, rest'⟩, hr, h⟩ := Option.bind_eq_some_iff.1 h
        cases h
        have hmore := ih (hc.of_suffix ((List.suffix_cons _ _).trans hsuffix)) hr
        rw [comments_append, comments_char, List.append_assoc]
        exact (hmore.append_left _).trans hitem
      · next ts' hdrop =>
        cases h
        simpa using comments_padded hk hc hl hdrop
      · cases h

/-- The members of an inline table are read with their comments. -/
theorem comments_readMembers {depth fuel : Nat} (hk : KeepsComments depth)
    {ts rest last : List Token} {es : List (List Key × Literal)} (hc : Clear ts)
    (h : readMembers (readValue depth) fuel ts = some ((es, last), rest)) :
    (es.flatMap entryComments ++ comments last ++ comments rest).Perm (comments ts) := by
  induction fuel generalizing ts es last with
  | zero => cases h
  | succ fuel ih =>
    rw [readMembers] at h
    simp only [takeKind] at h
    split at h
    · next before ts' hspan =>
      -- the table ends before another member, with the gap before its brace
      obtain ⟨rfl, hdrop⟩ := Prod.mk.inj hspan
      cases h
      rw [← comments_takeKind Token.isGap ts, hdrop]
      simp
    · simp only [Option.bind_eq_bind, Option.bind_eq_some_iff, Prod.exists] at h
      obtain ⟨label, right, hsplit, path, hpath, l, after, hl, h⟩ := h
      obtain ⟨rfl, -⟩ := Text.splitFirst?_eq_some_iff.1 hsplit
      have hsuffix : right <:+ label ++ .char '=' :: right :=
        (List.suffix_cons _ _).trans (List.suffix_append _ _)
      have hright := hc.of_suffix hsuffix
      rw [comments_append, comments_char, (pathIn_of_readPath hpath).comments]
      split at h
      · next ts' hdrop =>
        -- a comma follows, which is written again before the last gap if no member does
        have hmember := comments_padded hk hright hl hdrop
        have hbehind := (padded_of_readValue (steady_of_readValue depth) hright hl hdrop).2
        obtain ⟨⟨⟨es', last'⟩, rest'⟩, hr, h⟩ := Option.bind_eq_some_iff.1 h
        cases h
        have hmore := ih (hright.of_suffix ((List.suffix_cons _ _).trans hbehind)) hr
        have hlast : comments (if es'.isEmpty = true then .char ',' :: last' else last')
            = comments last' := by
          split <;> rfl
        rw [hlast, List.flatMap_cons, entryComments, List.append_assoc, List.append_assoc,
          List.append_assoc, ← List.append_assoc (es'.flatMap entryComments)]
        exact ((hmore.append_left _).trans hmember).append_left _
      · next ts' hdrop =>
        cases h
        simpa [entryComments] using (comments_padded hk hright hl hdrop).append_left
          (path.getLast?.elim [] Key.comments)
      · cases h

/-- An inline table is written with the comments of its members. -/
theorem comments_inlineTable {depth : Nat} {es : List (List Key × Literal)}
    (hes : ∀ e ∈ es, Inline depth e) {last : List Token} {l : Literal}
    (h : inlineTable es last = some l) :
    (comments l.tokens).Perm (es.flatMap entryComments ++ comments last) := by
  obtain ⟨ms, hd, e⟩ := Option.bind_eq_some_iff.1 h
  cases e
  obtain ⟨hs, hp, -⟩ := sound_of_defineAll hes MembersSound.nil rfl hd
  have hinline : (leavesOf [] ms).flatMap (comments ∘ assignmentTokens)
      = (leavesOf [] ms).flatMap entryComments :=
    List.flatMap_congr fun e he => comments_assignmentTokens (hs.leaf he).1.legible
  -- an inline table has no headers, so all that is in it is written as values
  have hwritten : (commentsOf ms).Perm ((leavesOf [] ms).flatMap entryComments) := by
    have hnone : sectionsOf [] ms = [] := by
      rw [← List.map_eq_nil_iff (f := Section.place), map_place_sectionsOf, hp]
    simpa [hnone] using hs.comments []
  have hread := adds_defineAll es _ _ hd
  simp only [commentsOf, List.append_nil] at hread
  have hbraces := (hwritten.symm.trans hread).append_right (comments last)
  rw [← hinline] at hbraces
  have hcomma : comments [.char ','] = [] := rfl
  simpa [comments_joinWith hcomma, entriesOf_eq, List.flatMap_map, Function.comp_def] using hbraces

/-- What writes a value that was read has its comments. -/
theorem comments_readValue (depth : Nat) : KeepsComments depth := by
  -- on how deep values may be nested; items and members are read one level below
  induction depth using Nat.strongRecOn with
  | ind depth ih =>
    intro ts rest l hc h
    unfold readValue at h
    split at h
    · cases h
      exact List.Perm.refl _
    · next depth ts' =>
      obtain ⟨⟨⟨vs, tokens⟩, rest'⟩, hr, h⟩ := Option.bind_eq_some_iff.1 h
      cases h
      have hitems := comments_readItems (ih depth depth.lt_succ_self) hc.2.2 hr
      exact hitems
    · next depth ts' =>
      -- the members are put into a table, and written from it
      obtain ⟨⟨⟨es, last⟩, rest'⟩, hr, h⟩ := Option.bind_eq_some_iff.1 h
      obtain ⟨l, hl, h⟩ := Option.bind_eq_some_iff.1 h
      cases h
      have hes := (inline_of_readMembers (steady_of_readValue depth) hc.2.2 hr).1
      have hmembers := comments_readMembers (ih depth depth.lt_succ_self) hc.2.2 hr
      exact ((comments_inlineTable hes hl).append_right _).trans hmembers
    · rw [comments_readWord h]

/-! ### Reading documents -/

/-- A header has the comments before it and those behind its brackets. -/
theorem Statement.comments_readHeader {lead ts : List Token} {repeated : Bool} {x : Statement}
    (h : readHeader lead repeated ts = some x) :
    x.comments = Toml.comments lead ++ Toml.comments ts := by
  rw [readHeader_eq] at h
  obtain ⟨⟨inner, behind⟩, hsplit, hbehind⟩ := Option.bind_eq_some_iff.1 h
  obtain ⟨tail, hclosing, hread⟩ := Option.bind_eq_some_iff.1 hbehind
  obtain ⟨ht, hheader⟩ := Option.ite_none_right_eq_some.1 hread
  obtain ⟨path, hpath, e⟩ := Option.map_eq_some_iff.1 hheader
  subst e
  obtain ⟨rfl, -⟩ := Text.splitFirst?_eq_some_iff.1 hsplit
  obtain ⟨last, mid, -, rfl, hlead, hgap, -, -, hmid⟩ := (pathIn_of_readPath hpath).fringe
  -- between the path and the tail stand brackets alone
  have hbehind : Toml.comments behind = Toml.comments tail := by
    simp only [afterClosing?] at hclosing
    split at hclosing
    · split at hclosing <;> cases hclosing
      rfl
    · cases hclosing
      rfl
  simp [Statement.comments, comments_of_blank hlead, comments_of_blank hgap,
    comments_of_labels hmid, hbehind]

/-- A statement has the comments of the piece that it was read from. -/
theorem Statement.comments_read {piece : List Token} {x : Statement} (hc : Clear piece)
    (h : Statement.read piece = some x) : x.comments.Perm (Toml.comments piece) := by
  have hsplit := comments_takeKind Token.isGap piece
  have hrest := hc.of_suffix (List.dropWhile_suffix Token.isGap)
  simp only [Statement.read, takeKind] at h
  split at h
  · next rest hd =>
    rw [comments_readHeader h, ← hsplit, hd]
    rfl
  · next rest hd =>
    rw [comments_readHeader h, ← hsplit, hd]
    rfl
  · simp only [Option.bind_eq_bind, Option.bind_eq_some_iff] at h
    obtain ⟨⟨label, right⟩, hlabel, h⟩ := h
    obtain ⟨e, -⟩ := Text.splitFirst?_eq_some_iff.1 hlabel
    simp only [Statement.readAssignment, takeKind, Option.bind_eq_bind, Option.bind_eq_some_iff]
      at h
    obtain ⟨path, hpath, ⟨l, tail⟩, hl, h⟩ := h
    have hlabel := (pathIn_of_readPath hpath).comments
    split at h
    · cases h
    · cases h
      rw [e] at hrest hsplit
      have hvalue := comments_readValue maxDepth
        (hrest.right.2.2.of_suffix (List.dropWhile_suffix _)) hl
      have hright := comments_takeKind Token.isBlank right
      rw [← hsplit, comments_append, comments_char, ← List.append_assoc, ← comments_append, hlabel,
        ← hright]
      simpa [Statement.comments, entryComments] using (hvalue.append_left _).append_left _

/-- Statements have the comments of the pieces that they were read from. -/
theorem comments_statements {body : List (List Token)} {xs : List Statement}
    (hc : ∀ p ∈ body, Clear p)
    (h : List.Forall₂ (fun p x => Statement.read p = some x) body xs) :
    (xs.flatMap Statement.comments).Perm (body.flatMap comments) := by
  induction h with
  | nil => exact List.Perm.refl _
  | cons hread _ ih =>
    rw [List.forall_mem_cons] at hc
    rw [List.flatMap_cons, List.flatMap_cons]
    exact (Statement.comments_read hc.1 hread).append (ih hc.2)

/-- A document has the comments of the text it was read from. -/
theorem comments_read_perm {s : List Char} {ts : List Token} {d : Document}
    (ht : tokens (Document.withoutMark s) = some ts) (h : Document.read s = some d) :
    (comments d.tokens).Perm (comments ts) := by
  obtain ⟨body, xs, st, hby⟩ := readBy_of_read ht h
  have hbody : (xs.flatMap Statement.comments).Perm (body.flatMap comments) :=
    comments_statements (fun p hp => hby.clear p (mem_of_mem_body hby.pieces hp)) hby.read
  have htext : comments ts = body.flatMap comments ++ comments d.rest := by
    rw [← joinWith_splitStatements false 0 ts, comments_joinWith rfl]
    rcases hby.pieces with e | ⟨e, hrest⟩
    · rw [e]
      simp
    · rw [e, hrest]
      simp
  have hadded := comments_run hby.added
  rw [← hby.members] at hadded
  rw [htext]
  refine (sound_of_read_document h).comments.trans (List.Perm.append_right _ ?_)
  simpa [commentsOf] using hadded.trans (hbody.append_right _)

end LintHost.Toml
