/-
LintHost/Proofs/Toml/Unchanged.lean

Documents that are written as they were read.  Where headers are spelled by their names and
nothing is assigned to a dotted path, each statement says something new at the end: a header
begins a section behind all others, and an assignment stands behind the values of the section
that was begun last (`Faithful.add_header`, `Faithful.add_assignment`).  So the pieces of the
document come out in the order in which they went in (`tokens_of_plain`).

What a section looks like on paper is its outline, which leaves out how the keys of its path are
spelled.  A header brings one outline and changes no other (`openTable_opened`); an assignment
extends the one outline to whose table its header leads (`assign_assigned`).
-/
import LintHost.Proofs.Toml.Comments
import Mathlib.Data.List.TakeWhile

namespace LintHost.Toml

/-! ### Plain statements -/

/-- Whether a key is spelled by its name, with no blanks beside the dots. -/
structure Key.Bare (k : Key) : Prop where
  spelling : k.spelling = plainTokens k.name
  before : k.before = []
  after : k.after = []

/-- Whether nothing stands around a path that the key ends. -/
def Key.Tight (k : Key) : Prop :=
  k.lead = [] ∧ k.gap = []

/-- Whether a path is made of bare names, with nothing around it. -/
structure BarePath (path : List Key) : Prop where
  bare : ∀ k ∈ path, k.Bare
  tight : ∀ last, path.getLast? = some last → last.Tight

/-- Whether a header is made of bare names, or an assignment has one key. -/
def Statement.Plain : Statement → Prop
  | header _ _ path _ => BarePath path
  | assignment path _ => path.length = 1

/-- What is written for a statement alone. -/
def Statement.tokens : Statement → List Token
  | header lead repeated path tail =>
    lead ++ brackets repeated '[' ++ pathTokens path ++ brackets repeated ']' ++ tail
  | assignment path right => assignmentTokens (path, right)

/-- Whether the statements of a row of tokens are plain, and each is written as it was read. -/
def Plain (ts : List Token) : Prop :=
  ∀ piece ∈ splitStatements false 0 ts, piece.all Token.isGap = false →
    ∃ x ∈ Statement.read piece, x.tokens = piece ∧ x.Plain

instance (k : Key) : Decidable k.Bare :=
  decidable_of_iff (k.spelling = plainTokens k.name ∧ k.before = [] ∧ k.after = [])
    ⟨fun ⟨hs, hb, ha⟩ => ⟨hs, hb, ha⟩, fun ⟨hs, hb, ha⟩ => ⟨hs, hb, ha⟩⟩

instance (k : Key) : Decidable k.Tight :=
  inferInstanceAs (Decidable (_ ∧ _))

instance (path : List Key) : Decidable (BarePath path) :=
  decidable_of_iff ((∀ k ∈ path, k.Bare) ∧ ∀ last ∈ path.getLast?, last.Tight)
    ⟨fun ⟨hb, ht⟩ => ⟨hb, ht⟩, fun ⟨hb, ht⟩ => ⟨hb, ht⟩⟩

instance (x : Statement) : Decidable x.Plain :=
  match x with
  | .header _ _ path _ => inferInstanceAs (Decidable (BarePath path))
  | .assignment path _ => inferInstanceAs (Decidable (path.length = 1))

instance (ts : List Token) : Decidable (Plain ts) :=
  inferInstanceAs (Decidable (∀ piece ∈ splitStatements false 0 ts,
    piece.all Token.isGap = false → ∃ x ∈ Statement.read piece, x.tokens = piece ∧ x.Plain))

/-- Bare keys are written as their names. -/
theorem dotted_bare {path : List Key} (h : ∀ k ∈ path, k.Bare) :
    dotted path = dotted ((path.map Key.name).map Key.plain) := by
  induction path with
  | nil => rfl
  | cons k path ih =>
    rw [List.forall_mem_cons] at h
    cases path with
    | nil => exact h.1.spelling
    | cons l path =>
      have hl := h.2 l List.mem_cons_self
      rw [List.map_cons, List.map_cons, dotted, ih h.2, h.1.spelling, h.1.after, hl.before]
      rfl

theorem pathTokens_bare {path : List Key} (h : BarePath path) :
    pathTokens path = dotted ((path.map Key.name).map Key.plain) := by
  cases hlast : path.getLast? with
  | none =>
    rw [List.getLast?_eq_none_iff] at hlast
    rw [hlast]
    rfl
  | some last =>
    obtain ⟨hlead, hgap⟩ := h.tight last hlast
    rw [pathTokens_of_getLast? hlast, hlead, hgap, List.append_nil, List.nil_append,
      dotted_bare h.bare]

/-! ### Trees of plain statements -/

/-- The place of the header that set up a node, or the newest table of it. -/
def Node.ownPlace? : Node → Option Nat
  | .table (.header heading) _ => some heading.place
  | .tables (heading, _) _ => some heading.place
  | .value _ _ | .table .implied _ | .table .dotted _ => none

/-- Whether no dotted path created a table in a member, the keys of the tables in it are bare, and
tables without a header have no values of their own. -/
inductive Node.Keyed : Key → Node → Prop where
  | value {key : Key} {v : Value} {right : List Token} : Keyed key (.value v right)
  | implied {key : Key} {ms : Members} (hk : key.Bare) (hl : ∀ path, leavesOf path ms = [])
      (hms : ∀ m ∈ ms, Keyed m.1 m.2) : Keyed key (.table .implied ms)
  | header {key : Key} {heading : Heading} {ms : Members} (hk : key.Bare) (ht : key.Tight)
      (hms : ∀ m ∈ ms, Keyed m.1 m.2) : Keyed key (.table (.header heading) ms)
  | tables {key : Key} {newest : Heading × Members} {older : List (Heading × Members)}
      (hk : key.Bare) (ht : key.Tight) (hes : ∀ e ∈ newest :: older, ∀ m ∈ e.2, Keyed m.1 m.2) :
      Keyed key (.tables newest older)

/-- Whether all members are such. -/
def Keyed (ms : Members) : Prop :=
  ∀ m ∈ ms, m.2.Keyed m.1

theorem Keyed.put {ms : Members} (h : Keyed ms) (name : String) {m : Key × Node}
    (hm : m.2.Keyed m.1) : Keyed (put name m ms) := by
  induction ms with
  | nil => simpa [Toml.put, Keyed] using hm
  | cons n ms ih =>
    rw [Keyed, List.forall_mem_cons] at h
    rw [Toml.put]
    split
    · exact List.forall_mem_cons.2 ⟨hm, h.2⟩
    · exact List.forall_mem_cons.2 ⟨h.1, ih h.2⟩

/-- A member on the way of a header has no values among those of its table. -/
theorem Node.Keyed.leaves {key : Key} {n : Node} (h : n.Keyed key) {ms : Members}
    (hi : n.inner? = some ms) (path : List Key) : n.leaves path = [] := by
  cases h with
  | value => cases hi
  | implied | header | tables => rfl

theorem Node.Keyed.inner {key : Key} {n : Node} (h : n.Keyed key) {ms : Members}
    (hi : n.inner? = some ms) : key.Bare ∧ Toml.Keyed ms := by
  cases h with
  | value => cases hi
  | implied hk _ hms | header hk _ hms =>
    cases hi
    exact ⟨hk, hms⟩
  | tables hk _ hes =>
    cases hi
    exact ⟨hk, hes _ List.mem_cons_self⟩

theorem Node.Keyed.withInner {key : Key} {n : Node} (h : n.Keyed key) {ms ms' : Members}
    (hi : n.inner? = some ms) (hl : ∀ path, leavesOf path ms' = leavesOf path ms)
    (hms : Toml.Keyed ms') : (n.withInner ms').Keyed key := by
  cases h with
  | value => cases hi
  | implied hk hnone =>
    cases hi
    exact .implied hk (fun path => (hl path).trans (hnone path)) hms
  | header hk ht => exact .header hk ht hms
  | tables hk ht hes =>
    rw [List.forall_mem_cons] at hes
    exact .tables hk ht (List.forall_mem_cons.2 ⟨hms, hes.2⟩)

/-- A table with a header may have any members of its own. -/
theorem Node.Keyed.own {key : Key} {n : Node} (h : n.Keyed key) {ms ms' : Members} {place : Nat}
    (hi : n.inner? = some ms) (ho : n.ownPlace? = some place) (hms : Toml.Keyed ms') :
    (n.withInner ms').Keyed key := by
  cases h with
  | value => cases hi
  | implied => cases ho
  | header hk ht => exact .header hk ht hms
  | tables hk ht hes =>
    rw [List.forall_mem_cons] at hes
    exact .tables hk ht (List.forall_mem_cons.2 ⟨hms, hes.2⟩)

theorem bare_concat {path : List Key} (hp : ∀ k ∈ path, k.Bare) {key : Key} (hk : key.Bare) :
    ∀ k ∈ path ++ [key], k.Bare :=
  List.forall_mem_append.2 ⟨hp, by simpa using hk⟩

theorem barePath_concat {path : List Key} (hp : ∀ k ∈ path, k.Bare) {key : Key} (hk : key.Bare)
    (ht : key.Tight) : BarePath (path ++ [key]) :=
  ⟨bare_concat hp hk, fun last hlast => by
    rw [List.getLast?_concat, Option.some.injEq] at hlast
    exact hlast ▸ ht⟩

/-- The sections of such a member have bare paths, if it stands behind bare keys. -/
theorem Node.Keyed.barePath {key : Key} {n : Node} (h : n.Keyed key) {path : List Key}
    (hp : ∀ k ∈ path, k.Bare) {sec : Section} (hsec : sec ∈ n.sections (path ++ [key])) :
    BarePath sec.path := by
  induction h generalizing path with
  | value => cases hsec
  | implied hk _ _ ih =>
    obtain ⟨m, hm, hsec⟩ := mem_sectionsOf.1 hsec
    exact ih m hm (bare_concat hp hk) hsec
  | header hk ht _ ih =>
    rcases List.mem_cons.1 hsec with rfl | hsec
    · exact barePath_concat hp hk ht
    · obtain ⟨m, hm, hsec⟩ := mem_sectionsOf.1 hsec
      exact ih m hm (bare_concat hp hk) hsec
  | @tables key newest older hk ht _ ih =>
    rw [sections_tables] at hsec
    obtain ⟨e, he, hsec⟩ := List.mem_flatMap.1 hsec
    rcases List.mem_cons.1 hsec with rfl | hsec
    · exact barePath_concat hp hk ht
    · obtain ⟨m, hm, hsec⟩ := mem_sectionsOf.1 hsec
      exact ih e he m hm (bare_concat hp hk) hsec

theorem Keyed.barePath {ms : Members} (h : Keyed ms) {sec : Section}
    (hsec : sec ∈ sectionsOf [] ms) : BarePath sec.path := by
  obtain ⟨m, hm, hsec⟩ := mem_sectionsOf.1 hsec
  exact (h m hm).barePath (by simp) hsec

/-! ### Outlines -/

/-- What is written of a section, but for the spelling of its path. -/
structure Outline where
  heading : Heading
  repeated : Bool
  names : List String
  leaves : List (List Key × Literal)

/-- The outline of a section. -/
def Section.outline (sec : Section) : Outline :=
  ⟨sec.heading, sec.repeated, sec.path.map Key.name, leavesOf [] sec.members⟩

/-- The outlines of the sections in a table. -/
def outlinesOf (path : List Key) (ms : Members) : List Outline :=
  (sectionsOf path ms).map Section.outline

/-- The outlines of a member. -/
def Node.outlines (path : List Key) (n : Node) : List Outline :=
  (n.sections path).map Section.outline

/-- What is written of a section whose path is spelled by its names. -/
def Outline.pieces (o : Outline) : List (List Token) :=
  (o.heading.lead ++ brackets o.repeated '[' ++ dotted (o.names.map Key.plain)
      ++ brackets o.repeated ']' ++ o.heading.tail) :: o.leaves.map assignmentTokens

theorem BarePath.pieces {sec : Section} (h : BarePath sec.path) :
    sec.pieces = sec.outline.pieces := by
  rw [Section.pieces, Section.headTokens, pathTokens_bare h]
  rfl

theorem outlinesOf_eq (path : List Key) (ms : Members) :
    outlinesOf path ms = ms.flatMap fun m => m.2.outlines (path ++ [m.1]) := by
  rw [outlinesOf, sectionsOf_eq, List.map_flatMap]
  rfl

/-- The outlines of the tables of an array. -/
def elementOutlines (path : List Key) (e : Heading × Members) : List Outline :=
  ⟨e.1, true, path.map Key.name, leavesOf [] e.2⟩ :: outlinesOf path e.2

theorem outlines_tables (path : List Key) (newest : Heading × Members)
    (older : List (Heading × Members)) : (Node.tables newest older).outlines path
      = (newest :: older).flatMap (elementOutlines path) := by
  rw [Node.outlines, sections_tables, List.map_flatMap]
  rfl

theorem outlines_table (path : List Key) (origin : Origin) (ms : Members) :
    (Node.table origin ms).outlines path
      = (sectionOf? path ms origin).toList.map Section.outline ++ outlinesOf path ms := by
  rw [Node.outlines, Node.sections, List.map_append]
  rfl

/-- The outline of a table is the same if its values are. -/
theorem sectionOf?_outline {path : List Key} {ms ms' : Members} (origin : Origin)
    (h : ∀ prior, leavesOf prior ms' = leavesOf prior ms) :
    (sectionOf? path ms' origin).toList.map Section.outline
      = (sectionOf? path ms origin).toList.map Section.outline := by
  cases origin with
  | implied | dotted => rfl
  | header heading =>
    show [Outline.mk heading false (path.map Key.name) (leavesOf [] ms')] = [_]
    rw [h]
    rfl

/-- Outlines depend on the names alone of the path before them. -/
theorem Node.outlines_congr (n : Node) {path path' : List Key}
    (h : path.map Key.name = path'.map Key.name) : n.outlines path = n.outlines path' := by
  have hms : ∀ (ms : Members) (path path' : List Key), path.map Key.name = path'.map Key.name →
      (∀ m ∈ ms, ∀ {path path' : List Key}, path.map Key.name = path'.map Key.name →
        m.2.outlines path = m.2.outlines path') →
      outlinesOf path ms = outlinesOf path' ms := by
    intro ms path path' h hms
    rw [outlinesOf_eq, outlinesOf_eq]
    exact List.flatMap_congr fun m hm => hms m hm (by rw [List.map_append, List.map_append, h])
  induction n using Node.members_induction generalizing path path' with
  | value v right => rfl
  | table origin ms ih =>
    rw [outlines_table, outlines_table, hms ms path path' h fun m hm _ _ h => ih m hm h]
    cases origin <;> simp [sectionOf?, Section.outline, h]
  | tables newest older ih =>
    rw [outlines_tables, outlines_tables]
    refine List.flatMap_congr fun e he => ?_
    rw [elementOutlines, elementOutlines, h, hms e.2 path path' h fun m hm _ _ h => ih e he m hm h]

theorem outlinesOf_congr (ms : Members) {path path' : List Key}
    (h : path.map Key.name = path'.map Key.name) : outlinesOf path ms = outlinesOf path' ms := by
  rw [outlinesOf_eq, outlinesOf_eq]
  exact List.flatMap_congr fun m _ => m.2.outlines_congr (by simp [h])

/-- The place of an outline. -/
abbrev Outline.place (o : Outline) : Nat :=
  o.heading.place

theorem Node.map_place_outlines (n : Node) (path : List Key) :
    (n.outlines path).map Outline.place = n.places := by
  rw [← n.map_place_sections path, outlines, List.map_map]
  rfl

theorem map_place_outlinesOf (path : List Key) (ms : Members) :
    (outlinesOf path ms).map Outline.place = placesOf ms := by
  rw [← map_place_sectionsOf path, outlinesOf, List.map_map]
  rfl

/-! ### Headers -/

/-- Whether a header leads to the table whose header stands at a place. -/
def Opens (place : Nat) : List Key → Members → Prop
  | [], _ => False
  | [key], ms => ∃ n, node? key.name ms = some n ∧ n.ownPlace? = some place
  | key :: next :: path, ms => ∃ n inner, node? key.name ms = some n ∧ n.inner? = some inner ∧
      Opens place (next :: path) inner

theorem opens_singleton {place : Nat} {key k : Key} {n : Node} {ms : Members}
    (hname : k.name = key.name) (h : n.ownPlace? = some place) :
    Opens place [key] (put key.name (k, n) ms) :=
  ⟨n, Changed.node?_self ⟨k, hname, rfl⟩, h⟩

theorem opens_cons {place : Nat} {key next k : Key} {path : List Key} {n : Node}
    {inner ms : Members} (hname : k.name = key.name) (hi : n.inner? = some inner)
    (h : Opens place (next :: path) inner) :
    Opens place (key :: next :: path) (put key.name (k, n) ms) :=
  ⟨n, inner, Changed.node?_self ⟨k, hname, rfl⟩, hi, h⟩

/-- A header leads through one of the members. -/
theorem node?_of_opens {place : Nat} {key : Key} {path : List Key} {ms : Members}
    (h : Opens place (key :: path) ms) : ∃ n, node? key.name ms = some n := by
  cases path with
  | nil => exact h.imp fun n hn => hn.1
  | cons next path => exact h.imp fun n hn => hn.choose_spec.1

/-- A new member without values of its own brings none. -/
theorem leavesOf_put_new {name : String} {m : Key × Node} {ms : Members}
    (hm : member? name ms = none) (h : ∀ path, m.2.leaves path = []) (path : List Key) :
    leavesOf path (put name m ms) = leavesOf path ms := by
  rw [put_of_none hm, leavesOf_eq, leavesOf_eq, List.flatMap_append, List.flatMap_singleton, h,
    List.append_nil]

/-- Members without values of their own take each other's place without a change of the values. -/
theorem leavesOf_put_old {name : String} {m old : Key × Node} {ms : Members}
    (hm : member? name ms = some old) (ho : ∀ path, old.2.leaves path = [])
    (h : ∀ path, m.2.leaves path = []) (path : List Key) :
    leavesOf path (put name m ms) = leavesOf path ms := by
  obtain ⟨before, after, rfl, hput⟩ := put_of_some hm
  rw [hput, leavesOf_eq, leavesOf_eq]
  simp only [List.flatMap_append, List.flatMap_cons, h, ho]

/-- What a header does to members: it brings the outline of its section, changes no other and no
value, and leads to the table that it sets up. -/
structure Opened (heading : Heading) (repeated : Bool) (path : List Key) (ms ms' : Members) :
    Prop where
  leaves : ∀ prior, leavesOf prior ms' = leavesOf prior ms
  outlines : ∀ prior, (outlinesOf prior ms').Perm
    (⟨heading, repeated, (prior ++ path).map Key.name, []⟩ :: outlinesOf prior ms)
  opens : Opens heading.place path ms'
  keyed : Keyed ms'

/-- A member that is put brings an outline if it has that one more than the old one. -/
theorem outlinesOf_put {name : String} {m : Key × Node} {ms : Members} {prior : List Key}
    {o : Outline}
    (h : (m.2.outlines (prior ++ [m.1])).Perm ([o] ++
      ((member? name ms).map fun m => m.2.outlines (prior ++ [m.1])).getD [])) :
    (outlinesOf prior (put name m ms)).Perm (o :: outlinesOf prior ms) := by
  rw [outlinesOf_eq, outlinesOf_eq]
  exact flatMap_put (f := fun m => m.2.outlines (prior ++ [m.1])) h

theorem setUp_opened {heading : Heading} {key : Key} {ms ms' : Members} (hk : Keyed ms)
    (hb : key.Bare) (ht : key.Tight) (h : setUp heading key ms = some ms') :
    Opened heading false [key] ms ms' := by
  rw [setUp, adjust_eq] at h
  obtain ⟨m', hf, rfl⟩ := Option.map_eq_some_iff.1 h
  rcases hm : member? key.name ms with - | ⟨k, _ | ⟨_ | _ | _, inner⟩ | ⟨_, _⟩⟩ <;>
    rw [hm] at hf <;> cases hf
  · refine ⟨leavesOf_put_new hm fun _ => rfl, fun prior => outlinesOf_put ?_,
      opens_singleton rfl rfl, hk.put _ (.header hb ht (by simp))⟩
    rw [hm]
    exact List.Perm.refl _
  · -- the table was implied, and so had no values and no outline of its own
    obtain ⟨hname, hmem⟩ := member?_eq_some hm
    obtain ⟨hnone, hinner⟩ : (∀ path, leavesOf path inner = []) ∧ Keyed inner := by
      cases hk _ hmem with
      | implied _ hl hms => exact ⟨hl, hms⟩
    refine ⟨leavesOf_put_old hm (fun _ => rfl) fun _ => rfl, fun prior => outlinesOf_put ?_,
      opens_singleton rfl rfl, hk.put _ (.header hb ht hinner)⟩
    rw [hm]
    -- the key of the header takes the place of the old one, which has the same name
    have hsame : outlinesOf (prior ++ [k]) inner = outlinesOf (prior ++ [key]) inner :=
      outlinesOf_congr inner (by simpa using hname)
    simp [outlines_table, sectionOf?, Section.outline, hnone, hsame]

theorem appendNew_opened {heading : Heading} {key : Key} {ms ms' : Members} (hk : Keyed ms)
    (hb : key.Bare) (ht : key.Tight) (h : appendNew heading key ms = some ms') :
    Opened heading true [key] ms ms' := by
  rw [appendNew, adjust_eq] at h
  obtain ⟨m', hf, rfl⟩ := Option.map_eq_some_iff.1 h
  rcases hm : member? key.name ms with - | ⟨k, _ | ⟨_, _⟩ | ⟨newest, older⟩⟩ <;>
    rw [hm] at hf <;> cases hf
  · refine ⟨leavesOf_put_new hm fun _ => rfl, fun prior => outlinesOf_put ?_,
      opens_singleton rfl rfl, hk.put _ (.tables hb ht (by simp))⟩
    rw [hm]
    exact List.Perm.refl _
  · -- the new table comes before those that are there, under their key
    obtain ⟨hname, hmem⟩ : k.name = key.name ∧ _ := member?_eq_some hm
    have hkeyed : (Node.tables (heading, []) (newest :: older)).Keyed k := by
      cases hk _ hmem with
      | tables hb ht hes => exact .tables hb ht (List.forall_mem_cons.2 ⟨by simp, hes⟩)
    refine ⟨leavesOf_put_old hm (fun _ => rfl) fun _ => rfl, fun prior => outlinesOf_put ?_,
      opens_singleton hname rfl, hk.put _ hkeyed⟩
    rw [hm]
    have hempty : ∀ path, outlinesOf path [] = [] := fun _ => rfl
    simp [outlines_tables, elementOutlines, leavesOf, hempty, hname]

/-- What a header does in a member, it does to the members around it. -/
theorem Opened.behind {heading : Heading} {repeated : Bool} {key next : Key} {path : List Key}
    {ms inner inner' : Members} {k : Key} {n : Node} (hk : Keyed ms)
    (hm : member? key.name ms = some (k, n)) (hi : n.inner? = some inner)
    (h : Opened heading repeated (next :: path) inner inner') :
    Opened heading repeated (key :: next :: path) ms
      (put key.name (k, n.withInner inner') ms) := by
  obtain ⟨hname, hmem⟩ : k.name = key.name ∧ _ := member?_eq_some hm
  have hn : n.Keyed k := hk _ hmem
  have hn' := hn.withInner hi h.leaves h.keyed
  have hi' := inner?_withInner hi inner'
  refine ⟨leavesOf_put_old hm (hn.leaves hi) (hn'.leaves hi'), fun prior => outlinesOf_put ?_,
    opens_cons hname hi' h.opens, hk.put _ hn'⟩
  rw [hm]
  have houtlines := h.outlines (prior ++ [k])
  have hnames : ((prior ++ [k]) ++ next :: path).map Key.name
      = (prior ++ key :: next :: path).map Key.name := by simp [hname]
  rw [hnames] at houtlines
  -- the new outline stands behind the node's own, if it has one
  rcases n with _ | ⟨origin, _⟩ | ⟨⟨own, _⟩, older⟩
  · cases hi
  · cases hi
    simp only [Node.withInner, outlines_table, sectionOf?_outline origin h.leaves,
      Option.map_some, Option.getD_some]
    exact (houtlines.append_left _).trans List.perm_middle
  · cases hi
    simp only [Node.withInner, outlines_tables, List.flatMap_cons, elementOutlines, h.leaves,
      Option.map_some, Option.getD_some]
    exact ((houtlines.append_right _).cons _).trans (List.Perm.swap _ _ _)

/-- A header with a bare path brings one outline, and leads to its table. -/
theorem openTable_opened {heading : Heading} {repeated : Bool} {path : List Key}
    {ms ms' : Members} (hk : Keyed ms) (hb : BarePath path)
    (h : openTable repeated heading path ms = some ms') :
    Opened heading repeated path ms ms' := by
  induction path generalizing ms ms' with
  | nil => cases h
  | cons key path ih =>
    have hkey := hb.bare key List.mem_cons_self
    cases path with
    | nil =>
      have ht := hb.tight key rfl
      rw [openTable_singleton] at h
      cases repeated
      · exact setUp_opened hk hkey ht h
      · exact appendNew_opened hk hkey ht h
    | cons next path =>
      have hb' : BarePath (next :: path) :=
        ⟨fun k hk => hb.bare k (List.mem_cons_of_mem _ hk), fun last hl => hb.tight last (by simpa)⟩
      rw [openTable_cons] at h
      obtain ⟨hm, inner', hc, rfl⟩ | ⟨k, n, inner, inner', hm, hi, hc, rfl⟩ :=
        behindHeader_eq_some h
      · -- the way to the table is new
        have hinner := ih (by simp [Keyed]) hb' hc
        have hnone : ∀ path, leavesOf path inner' = [] := fun path => hinner.leaves path
        refine ⟨leavesOf_put_new hm fun _ => rfl, fun prior => outlinesOf_put ?_,
          opens_cons rfl rfl hinner.opens, hk.put _ (.implied hkey hnone hinner.keyed)⟩
        rw [hm]
        have hnew := hinner.outlines (prior ++ [key])
        rw [List.append_assoc, List.singleton_append] at hnew
        exact hnew
      · exact Opened.behind hk hm hi (ih ((hk _ (member?_eq_some hm).2).inner hi).2 hb' hc)

/-! ### Assignments -/

/-- An outline with one more value, if it stands at the given place. -/
def Outline.extend (place : Nat) (e : List Key × Literal) (o : Outline) : Outline :=
  if o.place = place then { o with leaves := o.leaves ++ [e] } else o

theorem place_extend (place : Nat) (e : List Key × Literal) (o : Outline) :
    (o.extend place e).place = o.place := by
  unfold Outline.extend
  split <;> rfl

/-- Among outlines at places of their own, only those are extended among which the place is. -/
theorem map_extend {place : Nat} {a b c : List Outline}
    (hp : ((a ++ b ++ c).map Outline.place).Nodup) (hb : place ∈ b.map Outline.place)
    (e : List Key × Literal) : (a ++ b ++ c).map (Outline.extend place e)
      = a ++ b.map (Outline.extend place e) ++ c := by
  rw [List.map_append, List.map_append, List.nodup_append, List.nodup_append] at hp
  obtain ⟨⟨-, -, hab⟩, -, hc⟩ := hp
  have hapart : ∀ os : List Outline, place ∉ os.map Outline.place →
      os.map (Outline.extend place e) = os := by
    intro os hos
    refine (List.map_congr_left fun o ho => ?_).trans (List.map_id os)
    have hne : o.place ≠ place := fun he => hos (he ▸ List.mem_map_of_mem ho)
    simp [Outline.extend, hne]
  have ha := hapart a fun ha => hab place ha place hb rfl
  have hc := hapart c fun hm => hc place (List.mem_append_right _ hb) place hm rfl
  rw [List.map_append, List.map_append, ha, hc]

/-- The place of its own header is among those of a node. -/
theorem Node.mem_places_of_own (n : Node) {place : Nat} (h : n.ownPlace? = some place) :
    place ∈ n.places := by
  rcases n with _ | ⟨_ | _ | _, _⟩ | ⟨⟨_, _⟩, _⟩ <;> cases h
  · exact List.mem_cons_self
  · exact List.mem_cons_self

theorem Node.ownPlace?_withInner {n : Node} {ms : Members} (hi : n.inner? = some ms)
    (ms' : Members) : (n.withInner ms').ownPlace? = n.ownPlace? := by
  rcases n with _ | ⟨_ | _ | _, _⟩ | ⟨⟨_, _⟩, _⟩ <;> cases hi <;> rfl

theorem mem_places_of_opens {place : Nat} {path : List Key} {ms : Members}
    (h : Opens place path ms) : place ∈ placesOf ms := by
  induction path generalizing ms with
  | nil => exact h.elim
  | cons key path ih =>
    cases path with
    | nil =>
      obtain ⟨n, hn, hplace⟩ := h
      obtain ⟨k, hm, -⟩ := node?_eq_some hn
      exact mem_placesOf (member?_eq_some hm).2 (n.mem_places_of_own hplace)
    | cons next path =>
      obtain ⟨n, inner, hn, hi, hopens⟩ := h
      obtain ⟨k, hm, -⟩ := node?_eq_some hn
      exact mem_placesOf (member?_eq_some hm).2 (Node.mem_places_of_inner hi (ih hopens))

/-- What an assignment behind a header does to members: it extends the outline to whose table the
header leads. -/
structure Assigned (place : Nat) (header : List Key) (e : List Key × Literal)
    (ms ms' : Members) : Prop where
  leaves : ∀ prior, leavesOf prior ms' = leavesOf prior ms
  outlines : ∀ prior, outlinesOf prior ms' = (outlinesOf prior ms).map (Outline.extend place e)
  opens : Opens place header ms'
  keyed : Keyed ms'

/-- Where one node's outline is extended, so is that of the members. -/
theorem outlinesOf_extend {name : String} {k : Key} {n n' : Node} {ms : Members} {place : Nat}
    {e : List Key × Literal} {prior : List Key} (hp : (placesOf ms).Nodup)
    (hm : member? name ms = some (k, n)) (hn : place ∈ n.places)
    (h : n'.outlines (prior ++ [k]) = (n.outlines (prior ++ [k])).map (Outline.extend place e)) :
    outlinesOf prior (put name (k, n') ms)
      = (outlinesOf prior ms).map (Outline.extend place e) := by
  obtain ⟨before, after, rfl, hput⟩ := put_of_some hm
  rw [← map_place_outlinesOf prior] at hp
  rw [← n.map_place_outlines (prior ++ [k])] at hn
  simp only [outlinesOf_eq, List.flatMap_append, List.flatMap_cons, ← List.append_assoc] at hp ⊢
  rw [map_extend hp hn, hput]
  simp only [List.flatMap_append, List.flatMap_cons, h, List.append_assoc]

/-- A value that is assigned to a key stands behind all values of its table. -/
theorem define_key {v : Value} {right : List Token} {key : Key} {ms ms' : Members}
    (h : define v right [key] ms = some ms') : ms' = ms ++ [(key, .value v right)] := by
  rw [define, adjust_eq] at h
  obtain ⟨m', hf, rfl⟩ := Option.map_eq_some_iff.1 h
  rcases hm : member? key.name ms with - | old <;> rw [hm] at hf <;> cases hf
  exact put_of_none hm _

theorem leavesOf_value (prior : List Key) (ms : Members) (key : Key) (v : Value)
    (right : List Token) : leavesOf prior (ms ++ [(key, .value v right)])
      = leavesOf prior ms ++ [(prior ++ [key], ⟨v, right⟩)] := by
  rw [leavesOf_eq, leavesOf_eq, List.flatMap_append]
  rfl

theorem outlinesOf_value (prior : List Key) (ms : Members) (key : Key) (v : Value)
    (right : List Token) : outlinesOf prior (ms ++ [(key, .value v right)])
      = outlinesOf prior ms := by
  rw [outlinesOf_eq, outlinesOf_eq, List.flatMap_append]
  exact List.append_nil _

theorem Keyed.value {ms : Members} (h : Keyed ms) (key : Key) (v : Value) (right : List Token) :
    Keyed (ms ++ [(key, .value v right)]) :=
  List.forall_mem_append.2 ⟨h, by simpa using Node.Keyed.value⟩

theorem nodup_inner {n : Node} {ms : Members} (hi : n.inner? = some ms) (h : n.places.Nodup) :
    (placesOf ms).Nodup := by
  rcases n with _ | ⟨origin, _⟩ | ⟨⟨heading, _⟩, older⟩
  · cases hi
  · cases hi
    exact (List.nodup_append.1 h).2.1
  · cases hi
    exact (List.nodup_append.1 (List.nodup_cons.1 h).2).1

/-- A value that is assigned in the table that a header set up extends its outline. -/
theorem outlines_own {n : Node} {inner : Members} {place : Nat} (hi : n.inner? = some inner)
    (ho : n.ownPlace? = some place) (hp : n.places.Nodup) (key : Key) (v : Value)
    (right : List Token) (path : List Key) :
    (n.withInner (inner ++ [(key, .value v right)])).outlines path
      = (n.outlines path).map (Outline.extend place ([key], ⟨v, right⟩)) := by
  -- the outline of the table comes first
  have hfirst : ∃ o others, o.place = place ∧ n.outlines path = [] ++ [o] ++ others ∧
      (n.withInner (inner ++ [(key, .value v right)])).outlines path
        = { o with leaves := o.leaves ++ [([key], ⟨v, right⟩)] } :: others := by
    rcases n with _ | ⟨_ | _ | heading, _⟩ | ⟨⟨heading, _⟩, older⟩
    · cases hi
    · cases ho
    · cases ho
    · cases hi
      cases ho
      refine ⟨⟨heading, false, path.map Key.name, leavesOf [] inner⟩, outlinesOf path inner, rfl,
        outlines_table _ _ _, ?_⟩
      rw [Node.withInner, outlines_table, outlinesOf_value, sectionOf?]
      simp [Section.outline, leavesOf_value]
    · cases hi
      cases ho
      refine ⟨⟨heading, true, path.map Key.name, leavesOf [] inner⟩,
        outlinesOf path inner ++ older.flatMap (elementOutlines path), rfl,
        outlines_tables _ _ _, ?_⟩
      rw [Node.withInner, outlines_tables, List.flatMap_cons, elementOutlines, outlinesOf_value]
      simp [leavesOf_value]
  obtain ⟨o, others, hplace, hn, hn'⟩ := hfirst
  rw [← n.map_place_outlines path, hn] at hp
  rw [hn', hn, map_extend hp (by simp [hplace])]
  simp [Outline.extend, hplace]

/-- What extends an outline in a node extends it among those of the node. -/
theorem outlines_inner {n : Node} {inner inner' : Members} {place : Nat} {header : List Key}
    {e : List Key × Literal} (hi : n.inner? = some inner) (hp : n.places.Nodup)
    (ho : Opens place header inner) (h : Assigned place header e inner inner') (path : List Key) :
    (n.withInner inner').outlines path = (n.outlines path).map (Outline.extend place e) := by
  have hplace : place ∈ (outlinesOf path inner).map Outline.place := by
    rw [map_place_outlinesOf]
    exact mem_places_of_opens ho
  rw [← n.map_place_outlines path] at hp
  rcases n with _ | ⟨origin, _⟩ | ⟨⟨heading, _⟩, older⟩
  · cases hi
  · cases hi
    rw [outlines_table, ← List.append_nil (_ ++ _)] at hp ⊢
    rw [map_extend hp hplace, Node.withInner, outlines_table, sectionOf?_outline origin h.leaves,
      h.outlines, List.append_nil]
  · cases hi
    rw [outlines_tables, List.flatMap_cons, elementOutlines, ← List.singleton_append] at hp ⊢
    rw [map_extend hp hplace, Node.withInner, outlines_tables, List.flatMap_cons, elementOutlines,
      h.leaves, h.outlines]
    rfl

/-- A value that is assigned behind a header extends the outline of the table to which the header
leads. -/
theorem assign_assigned {place : Nat} {header : List Key} {key : Key} {v : Value}
    {right : List Token} {ms ms' : Members} (hk : Keyed ms) (hp : (placesOf ms).Nodup)
    (ho : Opens place header ms) (h : within header (define v right [key]) ms = some ms') :
    Assigned place header ([key], ⟨v, right⟩) ms ms' := by
  induction header generalizing ms ms' with
  | nil => exact ho.elim
  | cons step header ih =>
    obtain ⟨hm, -⟩ | ⟨k, n, inner, inner', hm, hi, hc, rfl⟩ := behindHeader_eq_some h
    · -- the header leads to a table that is there
      obtain ⟨n, hn⟩ := node?_of_opens ho
      rw [node?, hm] at hn
      cases hn
    obtain ⟨hname, hmem⟩ : k.name = step.name ∧ _ := member?_eq_some hm
    have hn : n.Keyed k := hk _ hmem
    have hnodup : n.places.Nodup := nodup_places_of_mem hp hmem
    have hnode : node? step.name ms = some n := by rw [node?, hm, Option.map_some]
    cases header with
    | nil =>
      -- the value goes into this table itself
      obtain ⟨n₁, hn₁, hown⟩ := ho
      obtain rfl : n = n₁ := Option.some.inj (hnode.symm.trans hn₁)
      have hin : place ∈ n.places := n.mem_places_of_own hown
      have hn' := hn.own hi hown (((hn.inner hi).2).value key v right)
      have hown' := (Node.ownPlace?_withInner hi (inner ++ [(key, .value v right)])).trans hown
      rw [define_key hc]
      exact ⟨leavesOf_put_old hm (hn.leaves hi) (hn'.leaves (inner?_withInner hi _)),
        fun prior => outlinesOf_extend hp hm hin (outlines_own hi hown hnodup key v right _),
        opens_singleton hname hown', hk.put _ hn'⟩
    | cons next header =>
      obtain ⟨n₁, inner₁, hn₁, hi₁, ho⟩ := ho
      obtain rfl : n = n₁ := Option.some.inj (hnode.symm.trans hn₁)
      obtain rfl : inner = inner₁ := Option.some.inj (hi.symm.trans hi₁)
      have ha := ih (hn.inner hi).2 (nodup_inner hi hnodup) ho hc
      have hn' := hn.withInner hi ha.leaves ha.keyed
      have hin : place ∈ n.places := Node.mem_places_of_inner hi (mem_places_of_opens ho)
      exact ⟨leavesOf_put_old hm (hn.leaves hi) (hn'.leaves (inner?_withInner hi _)),
        fun prior => outlinesOf_extend hp hm hin (outlines_inner hi hnodup ho ha _),
        opens_cons hname (inner?_withInner hi inner') ha.opens, hk.put _ hn'⟩

/-! ### Rows of statements -/

/-- The outlines of the sections of a tree, in the order of their headers. -/
def outline (ms : Members) : List Outline :=
  (sections ms).map Section.outline

theorem outline_perm (ms : Members) : (outline ms).Perm (outlinesOf [] ms) :=
  (sections_perm ms).map _

theorem outline_pairwise (ms : Members) :
    (outline ms).Pairwise fun a b => a.place ≤ b.place :=
  List.pairwise_map.2 (sections_pairwise ms)

/-- Outlines at places of their own have one order only. -/
theorem outline_eq {ms : Members} {os : List Outline} (hp : (placesOf ms).Nodup)
    (hperm : (outlinesOf [] ms).Perm os) (hos : os.Pairwise fun a b => a.place ≤ b.place) :
    outline ms = os := by
  have hsame := (outline_perm ms).trans hperm
  refine List.Perm.eq_of_pairwise (fun a b ha hb hab hba => ?_) (outline_pairwise ms) hos hsame
  have hnodup : (os.map Outline.place).Nodup := by
    rw [← (hperm.map Outline.place).nodup_iff, map_place_outlinesOf]
    exact hp
  exact List.inj_on_of_nodup_map hnodup (hsame.mem_iff.1 ha) hb (Nat.le_antisymm hab hba)

/-- What is written of a tree: its values, and its sections in order. -/
def linesOf (ms : Members) : List (List Token) :=
  (leavesOf [] ms).map assignmentTokens ++ (outline ms).flatMap Outline.pieces

/-- Whether a state is written as the statements that led to it. -/
structure Faithful (st : Document.State) (xs : List Statement) : Prop where
  sound : st.Sound
  keyed : Keyed st.members
  opens : st.header = [] ∧ st.place = 0 ∨
    ∃ place, st.place = place + 1 ∧ Opens place st.header st.members
  lines : linesOf st.members = xs.map Statement.tokens

theorem Faithful.init : Faithful {} [] where
  sound := ⟨MembersSound.nil, List.Perm.refl _, trivial⟩
  keyed := by simp [Keyed]
  opens := Or.inl ⟨rfl, rfl⟩
  lines := by simp [linesOf, outline, sections, sectionsOf, leavesOf]

theorem Document.State.Sound.nodup_places {st : Document.State} (h : st.Sound) :
    (placesOf st.members).Nodup :=
  h.places.nodup_iff.2 List.nodup_range

/-- The outlines of a state are at the places before its own, one at each. -/
theorem Document.State.Sound.map_place_outline {st : Document.State} (h : st.Sound) :
    (outline st.members).map Outline.place = List.range st.place := by
  refine List.Perm.eq_of_pairwise (fun _ _ _ _ => Nat.le_antisymm)
    (List.pairwise_map.2 (outline_pairwise st.members)) List.pairwise_le_range ?_
  refine ((outline_perm st.members).map _).trans ?_
  rw [map_place_outlinesOf]
  exact h.places

variable {st st' : Document.State} {xs : List Statement}

/-- A plain header comes behind all that was written. -/
theorem Faithful.add_header (h : Faithful st xs) {lead tail : List Token} {repeated : Bool}
    {path : List Key} (hx : (Statement.header lead repeated path tail).Sound)
    (hb : BarePath path) (ha : st.add (.header lead repeated path tail) = some st') :
    Faithful st' (xs ++ [.header lead repeated path tail]) := by
  have hsound := h.sound.add hx ha
  obtain ⟨ms, ho, e⟩ := Option.bind_eq_some_iff.1 ha
  cases e
  have hopened := openTable_opened h.keyed hb ho
  refine ⟨hsound, hopened.keyed, Or.inr ⟨st.place, rfl, hopened.opens⟩, ?_⟩
  have hnew : (outlinesOf [] ms).Perm (outline st.members
      ++ [⟨⟨st.place, lead, tail⟩, repeated, path.map Key.name, []⟩]) :=
    (hopened.outlines []).trans
      (((outline_perm st.members).symm.cons _).trans (List.perm_append_singleton _ _).symm)
  -- its place is behind all others, so the new outline is the last one
  have horder := outline_eq hsound.nodup_places hnew <| by
    refine List.pairwise_append.2 ⟨outline_pairwise st.members, List.pairwise_singleton _ _, ?_⟩
    intro o hm o' hm'
    rw [List.mem_singleton.1 hm']
    have hplace : o.place ∈ List.range st.place := by
      rw [← h.sound.map_place_outline]
      exact List.mem_map_of_mem hm
    exact Nat.le_of_lt (List.mem_range.1 hplace)
  have hlines := h.lines
  rw [linesOf] at hlines ⊢
  rw [hopened.leaves, horder, List.flatMap_append, ← List.append_assoc, hlines, List.map_append]
  simp [Outline.pieces, Statement.tokens, pathTokens_bare hb]

/-- Before the first header there are no sections. -/
theorem outline_eq_nil {ms : Members} (h : placesOf ms = []) : outline ms = [] := by
  rw [← map_place_outlinesOf [], List.map_eq_nil_iff] at h
  exact List.perm_nil.1 (h ▸ outline_perm ms)

/-- The section of the header that came last is written last. -/
theorem Document.State.Sound.exists_last_outline (h : st.Sound) {place : Nat}
    (hplace : st.place = place + 1) :
    ∃ init last, outline st.members = init ++ [last] ∧ last.place = place := by
  have hplaces := h.map_place_outline
  rw [hplace, List.range_succ, List.map_eq_append_iff] at hplaces
  obtain ⟨init, rest, hos, -, hrest⟩ := hplaces
  obtain ⟨last, rfl, hlast⟩ := List.map_eq_singleton_iff.1 hrest
  exact ⟨init, last, hos, hlast⟩

/-- To extend an outline changes neither the places nor their order. -/
theorem outline_eq_extend {ms ms' : Members} {place : Nat} {e : List Key × Literal}
    (hp : (placesOf ms').Nodup)
    (h : outlinesOf [] ms' = (outlinesOf [] ms).map (Outline.extend place e)) :
    outline ms' = (outline ms).map (Outline.extend place e) := by
  refine outline_eq hp ?_ (List.pairwise_map.2 ?_)
  · rw [h]
    exact (outline_perm ms).symm.map _
  · simpa only [place_extend] using outline_pairwise ms

/-- An assignment before the first header comes behind all that was written. -/
theorem Faithful.add_first (h : Faithful st xs) {key : Key} {right : Literal} {ms : Members}
    (hheader : st.header = []) (hplace : st.place = 0)
    (hsound : ({ st with members := ms } : Document.State).Sound)
    (hw : within st.header (define right.value right.tokens [key]) st.members = some ms) :
    Faithful { st with members := ms } (xs ++ [.assignment [key] right]) := by
  rw [hheader] at hw
  obtain rfl := define_key hw
  have hempty : placesOf st.members = [] :=
    List.perm_nil.1 (by simpa [hplace] using h.sound.places)
  have hnew : placesOf (st.members ++ [(key, .value right.value right.tokens)]) = [] := by
    rw [← map_place_outlinesOf [], outlinesOf_value, map_place_outlinesOf, hempty]
  refine ⟨hsound, h.keyed.value _ _ _, Or.inl ⟨hheader, hplace⟩, ?_⟩
  have hlines := h.lines
  rw [linesOf, outline_eq_nil hempty, List.flatMap_nil, List.append_nil] at hlines
  rw [linesOf, outline_eq_nil hnew, leavesOf_value, List.map_append, hlines]
  simp [Statement.tokens]

/-- An assignment behind a header comes behind all that was written. -/
theorem Faithful.add_behind (h : Faithful st xs) {key : Key} {right : Literal} {ms : Members}
    {place : Nat} (hplace : st.place = place + 1) (ho : Opens place st.header st.members)
    (hsound : ({ st with members := ms } : Document.State).Sound)
    (hw : within st.header (define right.value right.tokens [key]) st.members = some ms) :
    Faithful { st with members := ms } (xs ++ [.assignment [key] right]) := by
  have hassigned := assign_assigned h.keyed h.sound.nodup_places ho hw
  refine ⟨hsound, hassigned.keyed, Or.inr ⟨place, hplace, hassigned.opens⟩, ?_⟩
  -- the outline that is extended is the last one
  obtain ⟨init, last, hinit, hlast⟩ := h.sound.exists_last_outline hplace
  have hextended : (outline st.members).map (Outline.extend place ([key], right))
      = init ++ [{ last with leaves := last.leaves ++ [([key], right)] }] := by
    have hnodup : ((init ++ [last] ++ []).map Outline.place).Nodup := by
      rw [List.append_nil, ← hinit, h.sound.map_place_outline]
      exact List.nodup_range
    rw [hinit, ← List.append_nil (init ++ [last]), map_extend hnodup (by simp [hlast])]
    simp [Outline.extend, hlast]
  have hlines := h.lines
  rw [linesOf, hinit] at hlines
  rw [linesOf, hassigned.leaves, outline_eq_extend hsound.nodup_places (hassigned.outlines []),
    hextended, List.map_append, ← hlines]
  simp [Outline.pieces, Statement.tokens]

/-- A plain assignment comes behind all that was written. -/
theorem Faithful.add_assignment (h : Faithful st xs) {key : Key} {right : Literal}
    (hx : (Statement.assignment [key] right).Sound)
    (ha : st.add (.assignment [key] right) = some st') :
    Faithful st' (xs ++ [.assignment [key] right]) := by
  have hsound := h.sound.add hx ha
  obtain ⟨ms, hw, e⟩ := Option.bind_eq_some_iff.1 ha
  cases e
  rcases h.opens with ⟨hheader, hplace⟩ | ⟨place, hplace, ho⟩
  · exact h.add_first hheader hplace hsound hw
  · exact h.add_behind hplace ho hsound hw

/-- A row of plain statements comes out as it went in. -/
theorem Faithful.run {more : List Statement} (h : Faithful st xs) (hx : ∀ x ∈ more, x.Sound)
    (hp : ∀ x ∈ more, x.Plain) (hr : more.foldlM Document.State.add st = some st') :
    Faithful st' (xs ++ more) := by
  induction more generalizing st xs with
  | nil =>
    cases hr
    rwa [List.append_nil]
  | cons x more ih =>
    rw [List.forall_mem_cons] at hx hp
    obtain ⟨middle, ha, hr⟩ := Option.bind_eq_some_iff.1 hr
    have hadded : Faithful middle (xs ++ [x]) := by
      cases x with
      | header lead repeated path tail => exact h.add_header hx.1 hp.1 ha
      | assignment path right =>
        obtain ⟨key, rfl⟩ := List.length_eq_one_iff.1 hp.1
        exact h.add_assignment hx.1 ha
    have := ih hadded hx.2 hp.2 hr
    rwa [List.append_assoc, List.singleton_append] at this

/-! ### Texts -/

theorem joinWith_concat (sep : List Token) (pieces : List (List Token)) (last : List Token) :
    Text.joinWith sep (pieces ++ [last]) = pieces.flatMap (· ++ sep) ++ last := by
  induction pieces with
  | nil => rfl
  | cons piece pieces ih =>
    rw [List.cons_append, List.flatMap_cons, List.append_assoc, ← ih]
    cases pieces with
    | nil => rfl
    | cons next more => rfl

theorem ne_gap_of_read {piece : List Token} {x : Statement} (h : Statement.read piece = some x) :
    piece.all Token.isGap = false := by
  by_contra hgap
  have hdrop : piece.dropWhile Token.isGap = [] :=
    List.dropWhile_eq_nil_iff.2 (by simpa using hgap)
  simp [Statement.read, takeKind, hdrop, Text.splitFirst?] at h

/-- A document of plain statements is made of the pieces that were read. -/
theorem Faithful.pieces (h : Faithful st xs) (rest : List Token) :
    (⟨st.members, rest⟩ : Document).pieces = xs.map Statement.tokens := by
  have hsections : (sections st.members).flatMap Section.pieces
      = (outline st.members).flatMap Outline.pieces := by
    rw [outline, List.flatMap_map]
    exact List.flatMap_congr fun sec hsec =>
      (h.keyed.barePath ((sections_perm _).mem_iff.1 hsec)).pieces
  rw [← h.lines, linesOf, ← hsections]
  rfl

/-- If each piece is written as it was read, the statements are written as the pieces. -/
theorem written_statements {body : List (List Token)} {xs : List Statement}
    (hp : ∀ p ∈ body, ∀ x, Statement.read p = some x → x.tokens = p ∧ x.Plain)
    (h : List.Forall₂ (fun p x => Statement.read p = some x) body xs) :
    xs.map Statement.tokens = body ∧ ∀ x ∈ xs, x.Plain := by
  induction h with
  | nil => exact ⟨rfl, by simp⟩
  | cons hread _ ih =>
    rw [List.forall_mem_cons] at hp
    obtain ⟨htokens, hx⟩ := hp.1 _ hread
    obtain ⟨hrest, hxs⟩ := ih hp.2
    exact ⟨by rw [List.map_cons, htokens, hrest], List.forall_mem_cons.2 ⟨hx, hxs⟩⟩

/-- A document of plain statements is written as it was read, with a line end behind the last
statement if there was none. -/
theorem tokens_of_plain {s : List Char} {ts : List Token} {d : Document}
    (ht : tokens (Document.withoutMark s) = some ts) (h : Document.read s = some d)
    (hp : Plain ts) : d.tokens = ts ∨ d.tokens = ts ++ [.newline] := by
  obtain ⟨body, xs, st, hby⟩ := readBy_of_read ht h
  -- a piece is read as one statement, which is plain and written as the piece
  have hplain : ∀ p ∈ body, ∀ x, Statement.read p = some x → x.tokens = p ∧ x.Plain := by
    intro p hm x hread
    obtain ⟨x', hread', htokens, hx'⟩ :=
      hp p (mem_of_mem_body hby.pieces hm) (ne_gap_of_read hread)
    obtain rfl := Option.some.inj (hread.symm.trans hread')
    exact ⟨htokens, hx'⟩
  obtain ⟨hwritten, hxs⟩ := written_statements hplain hby.read
  have hrun := Faithful.init.run hby.sound hxs hby.added
  have hd : d.pieces = body := by
    have hpieces := hrun.pieces d.rest
    rw [← hby.members] at hpieces
    rw [hpieces, List.nil_append, hwritten]
  rw [d.tokens_eq, hd, ← joinWith_splitStatements false 0 ts]
  rcases hby.pieces with e | ⟨e, hrest⟩
  · rw [e, joinWith_concat]
    exact Or.inl rfl
  · -- nothing stands behind the last statement, and it is ended now
    rw [e, hrest, List.append_nil]
    rcases List.eq_nil_or_concat' body with rfl | ⟨init, last, rfl⟩
    · exact absurd e (splitStatements_ne_nil _ _ _)
    · rw [joinWith_concat, List.flatMap_append]
      exact Or.inr (by simp)

/-- Values that dotted paths bring to one table are written together, so they change places with
others. -/
example : (defineAll ([["a", "b"], ["c"], ["a", "d"]].map fun names =>
      (names.map Key.plain, ⟨.boolean true, []⟩)) []).map
    (fun ms => (leavesOf [] ms).map fun e => e.1.map Key.name)
      = some [["a", "b"], ["a", "d"], ["c"]] := by
  decide

/-- A text without carriage returns is what its tokens are made of. -/
theorem written_tokens {s : List Char} {ts : List Token} (h : tokens s = some ts)
    (hr : '\r' ∉ s) : written ts = s := by
  obtain ⟨rfl, rfl⟩ | ⟨t, rest, us, rfl, -, -, hlt, hus, hs⟩ := tokens_eq_some h
  · rfl
  · have hrest : '\r' ∉ rest := by
      rw [hs hr] at hr
      exact fun hm => hr (List.mem_append_right _ hm)
    rw [written_cons, written_tokens hus hrest, ← hs hr]
termination_by s.length

end LintHost.Toml
