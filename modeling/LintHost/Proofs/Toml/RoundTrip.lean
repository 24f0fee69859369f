/-
LintHost/Proofs/Toml/RoundTrip.lean

Documents that are written are read again.  Reading gives a document whose tree is sound,
with one header at each place (`sound_of_read_document`).  A sound document is cut into
the pieces of which it was made, its statements take a new tree through the growth of
the old one, and the two say the same but for the order of members (`read_print`).
-/
import LintHost.Proofs.Toml.Statements

namespace LintHost.Toml

open Statement (readAssignment readHeader)

/-! ### What reading gives -/

/-- What every document has that was read: a sound tree, whose headers stand at the first places,
and a gap behind the last statement. -/
structure Document.Sound (d : Document) : Prop where
  members : MembersSound lineMarks .root d.members
  places : ∃ n, (placesOf d.members).Perm (List.range n)
  gap : d.rest.all Token.isGap = true
  clear : Clear d.rest

/-- What every state has in which statements leave a document. -/
structure Document.State.Sound (st : Document.State) : Prop where
  members : MembersSound lineMarks .root st.members
  places : (placesOf st.members).Perm (List.range st.place)
  leads : Leads st.header st.members

/-- A statement keeps the state sound. -/
theorem Document.State.Sound.add {st st' : Document.State} {x : Statement} (h : st.Sound)
    (hx : x.Sound) (ha : st.add x = some st') : st'.Sound := by
  cases x with
  | header lead repeated path tail =>
    obtain ⟨hlen, hpath, hlead, htail⟩ := hx
    obtain ⟨ms, ho, e⟩ := Option.bind_eq_some_iff.1 ha
    cases e
    have hnew : ∀ q ∈ placesOf st.members, q < st.place := fun q hq =>
      List.mem_range.1 (h.places.mem_iff.1 hq)
    have hheading : lineMarks.heading ⟨st.place, lead, tail⟩ := ⟨hlead, htail⟩
    obtain ⟨hg, hleads⟩ := h.members.openTable hpath hheading (by simpa [Site.root] using hlen)
      hnew ho
    refine ⟨hg.sound, hg.places.trans ?_, hleads⟩
    rw [List.range_succ]
    exact (List.Perm.cons _ h.places).trans (List.perm_append_singleton _ _).symm
  | assignment path right =>
    obtain ⟨ms, hw, e⟩ := Option.bind_eq_some_iff.1 ha
    cases e
    obtain ⟨hg, hleads⟩ := h.members.assign h.leads hx.path hx.short hw
    exact ⟨hg.sound, hg.places.trans h.places, hleads⟩

/-- Statements keep the state sound. -/
theorem Document.State.Sound.run {xs : List Statement} {st st' : Document.State} (h : st.Sound)
    (hx : ∀ x ∈ xs, x.Sound) (hr : xs.foldlM Document.State.add st = some st') : st'.Sound := by
  induction xs generalizing st with
  | nil =>
    cases hr
    exact h
  | cons x xs ih =>
    rw [List.forall_mem_cons] at hx
    obtain ⟨middle, ha, hr⟩ := Option.bind_eq_some_iff.1 hr
    exact ih (h.add hx.1 ha) hx.2 hr

/-- Pieces are clear if the tokens that were cut are. -/
theorem clear_of_joinWith {pieces : List (List Token)}
    (h : Clear (Text.joinWith [.newline] pieces)) : ∀ p ∈ pieces, Clear p := by
  induction pieces with
  | nil => simp
  | cons p pieces ih =>
    cases pieces with
    | nil => simpa [Text.joinWith] using h
    | cons q pieces =>
      rw [Text.joinWith, List.append_assoc, List.singleton_append] at h
      · exact List.forall_mem_cons.2 ⟨h.left_of_newline, ih h.right.2.2⟩
      · simp

/-- How a document is read from tokens: the pieces that are statements, the statements that stand
in them, and the state to which these lead. -/
structure Document.ReadBy (ts : List Token) (d : Document) (body : List (List Token))
    (xs : List Statement) (st : Document.State) : Prop where
  /-- Behind the statements stands the rest, if anything. -/
  pieces : splitStatements false 0 ts = body ++ [d.rest] ∨
    splitStatements false 0 ts = body ∧ d.rest = []
  gap : d.rest.all Token.isGap = true
  clear : ∀ p ∈ splitStatements false 0 ts, Clear p
  read : List.Forall₂ (fun p x => Statement.read p = some x) body xs
  sound : ∀ x ∈ xs, x.Sound
  added : xs.foldlM Document.State.add {} = some st
  members : d.members = st.members

/-- The pieces of a document are its statements, and maybe what stands behind them. -/
theorem ofPieces_eq_some {pieces : List (List Token)} {d : Document}
    (h : Document.ofPieces pieces = some d) :
    ∃ (body : List (List Token)) (xs : List Statement) (st : Document.State),
      (pieces = body ++ [d.rest] ∨ pieces = body ∧ d.rest = []) ∧
      d.rest.all Token.isGap = true ∧ body.mapM Statement.read = some xs ∧
      xs.foldlM Document.State.add {} = some st ∧ d.members = st.members := by
  simp only [Document.ofPieces, Option.bind_eq_bind, Option.bind_eq_some_iff] at h
  obtain ⟨xs, hxs, st, hst, e⟩ := h
  cases e
  split at hxs
  · next hg =>
    refine ⟨_, xs, st, ?_, by simp [hg], hxs, hst, rfl⟩
    simp only [hg, if_true]
    rcases List.eq_nil_or_concat' pieces with rfl | ⟨init, last, rfl⟩
    · exact Or.inr ⟨rfl, rfl⟩
    · left
      rw [List.dropLast_concat, List.getLast?_concat, Option.getD_some]
  · next hg =>
    refine ⟨_, xs, st, Or.inr ⟨rfl, ?_⟩, by simp [hg], hxs, hst, rfl⟩
    simp only [hg]
    rfl

theorem mem_of_mem_body {pieces body : List (List Token)} {rest : List Token}
    (h : pieces = body ++ [rest] ∨ pieces = body ∧ rest = []) {p : List Token} (hp : p ∈ body) :
    p ∈ pieces := by
  rcases h with rfl | ⟨rfl, -⟩
  · exact List.mem_append_left _ hp
  · exact hp

/-- Every document that is read is read so. -/
theorem readBy_of_read {s : List Char} {ts : List Token} {d : Document}
    (ht : tokens (Document.withoutMark s) = some ts) (h : Document.read s = some d) :
    ∃ body xs st, d.ReadBy ts body xs st := by
  rw [Document.read, ht] at h
  obtain ⟨body, xs, st, hpieces, hgap, hxs, hst, hmembers⟩ := ofPieces_eq_some h
  have hclear : ∀ p ∈ splitStatements false 0 ts, Clear p :=
    clear_of_joinWith (by rw [joinWith_splitStatements]; exact clear_of_tokens ht)
  have hruns : ∀ p ∈ splitStatements false 0 ts, Runs false 0 p := by
    obtain ⟨first, pieces, e, hf, hp⟩ := runs_of_splitStatements false 0 ts
    rw [e]
    exact List.forall_mem_cons.2 ⟨hf, hp⟩
  have hread := Text.mapM_eq_some_iff.1 hxs
  refine ⟨body, xs, st, hpieces, hgap, hclear, hread, fun x hx => ?_, hst, hmembers⟩
  obtain ⟨p, hp, hx⟩ := Text.exists_of_mem_right hread x hx
  have hmem := mem_of_mem_body hpieces hp
  exact sound_of_read (hclear p hmem) (hruns p hmem) hx

/-- What reading gives is sound. -/
theorem sound_of_read_document {s : List Char} {d : Document} (h : Document.read s = some d) :
    d.Sound := by
  obtain ⟨ts, hts, -⟩ := Option.bind_eq_some_iff.1 h
  obtain ⟨body, xs, st, hby⟩ := readBy_of_read hts h
  have hinit : Document.State.Sound {} := ⟨MembersSound.nil, List.Perm.refl _, trivial⟩
  have hst := hinit.run hby.sound hby.added
  refine ⟨hby.members ▸ hst.members, ⟨st.place, hby.members ▸ hst.places⟩, hby.gap, ?_⟩
  rcases hby.pieces with e | ⟨-, e⟩
  · apply hby.clear
    rw [e]
    exact List.mem_append_right _ List.mem_cons_self
  · rw [e]
    trivial

/-! ### The pieces of a sound document -/

/-- The pieces of a section. -/
def Section.pieces (sec : Section) : List (List Token) :=
  sec.headTokens :: (leavesOf [] sec.members).map assignmentTokens

/-- The pieces of a document: its values, and its sections in order. -/
def Document.pieces (d : Document) : List (List Token) :=
  (leavesOf [] d.members).map assignmentTokens ++ (sections d.members).flatMap Section.pieces

theorem bodyTokens_eq (ms : Members) :
    bodyTokens ms = ((leavesOf [] ms).map assignmentTokens).flatMap (· ++ [.newline]) := by
  rw [bodyTokens, entriesOf_eq]

/-- A document is its pieces, each on lines of its own, and what stands behind them. -/
theorem Document.tokens_eq (d : Document) :
    d.tokens = d.pieces.flatMap (· ++ [.newline]) ++ d.rest := by
  have hsection (sec : Section) : sec.tokens = sec.pieces.flatMap (· ++ [.newline]) := by
    rw [Section.tokens_eq, bodyTokens_eq, Section.pieces, List.flatMap_cons]
    simp
  rw [Document.tokens, bodyTokens_eq, Document.pieces, List.flatMap_append, List.flatMap_assoc,
    List.flatMap_congr fun sec _ => hsection sec]

/-- Whether a piece may stand in a document: it is cut off whole, told apart from the next one, and
starts with no byte order mark. -/
structure Piece (p : List Token) : Prop where
  whole : Whole p
  clear : Clear p
  head : ∃ t, p.head? = some t ∧ (t.isGap = true ∨ t.isLabel = true ∨ t = .char '[')

theorem OnLine.piece {e : List Key × Literal} (h : OnLine e) : Piece (assignmentTokens e) := by
  obtain ⟨last, t, rest, -, hlead, ht, he, -⟩ := h.tokens_eq
  refine ⟨h.whole, h.clear, ?_⟩
  rw [he]
  cases hl : last.lead with
  | nil => exact ⟨t, rfl, Or.inr (Or.inl ht)⟩
  | cons u lead =>
    rw [hl, List.all_cons, Bool.and_eq_true] at hlead
    exact ⟨u, rfl, Or.inl hlead.1⟩

theorem SectionSound.piece {sec : Section} {depth : Nat}
    (h : SectionSound lineMarks depth sec.path sec) : Piece sec.headTokens := by
  refine ⟨h.whole, h.clear, ?_⟩
  have hlead := h.heading.1.gap
  simp only [Section.headTokens, List.append_assoc]
  cases hl : sec.heading.lead with
  | nil => exact ⟨_, head?_brackets _ _ _, Or.inr (Or.inr rfl)⟩
  | cons u lead =>
    rw [hl, List.all_cons, Bool.and_eq_true] at hlead
    exact ⟨u, rfl, Or.inl hlead.1⟩

theorem onLine_of_mem_leavesOf {ms : Members} {depth : Nat}
    (h : MembersSound lineMarks ⟨depth, 0, true⟩ ms) : ∀ e ∈ leavesOf [] ms, OnLine e := by
  intro e he
  obtain ⟨hpath, hlen⟩ := h.leaf he
  exact ⟨by simpa using hlen, hpath⟩

theorem Document.Sound.section {d : Document} (h : d.Sound) {sec : Section}
    (hm : sec ∈ sectionsOf [] d.members) : SectionSound lineMarks 0 sec.path sec :=
  h.members.section hm

theorem Document.Sound.pieces {d : Document} (h : d.Sound) : ∀ p ∈ d.pieces, Piece p := by
  intro p hp
  rcases List.mem_append.1 hp with hp | hp
  · obtain ⟨e, he, rfl⟩ := List.mem_map.1 hp
    exact (onLine_of_mem_leavesOf h.members e he).piece
  · obtain ⟨sec, hsec, hp⟩ := List.mem_flatMap.1 hp
    have hs := h.section ((sections_perm _).mem_iff.1 hsec)
    rcases List.mem_cons.1 hp with rfl | hp
    · exact hs.piece
    · obtain ⟨depth, hms⟩ := hs.members
      obtain ⟨e, he, rfl⟩ := List.mem_map.1 hp
      exact (onLine_of_mem_leavesOf hms e he).piece

theorem clear_lines {pieces : List (List Token)} (h : ∀ p ∈ pieces, Piece p) {rest : List Token}
    (hr : Clear rest) : Clear (pieces.flatMap (· ++ [.newline]) ++ rest) := by
  induction pieces with
  | nil => exact hr
  | cons p pieces ih =>
    rw [List.forall_mem_cons] at h
    simpa using clear_line h.1.clear (ih h.2)

/-! ### Cutting what was written -/

theorem withoutMark_of_head? {s : List Char} (h : s.head? ≠ some '\uFEFF') :
    Document.withoutMark s = s := by
  unfold Document.withoutMark
  split
  · exact absurd rfl h
  · rfl

/-- What starts with a gap, a key or a bracket starts with no byte order mark. -/
theorem withoutMark_written {ts : List Token} (hc : Clear ts)
    (h : ∀ t, ts.head? = some t → t.isGap = true ∨ t.isLabel = true ∨ t = .char '[') :
    Document.withoutMark (written ts) = written ts := by
  refine withoutMark_of_head? fun e => ?_
  cases ts with
  | nil => cases e
  | cons t ts =>
    rw [hc.1.head?_written] at e
    have hread := hc.1
    cases t with
    | quoted =>
      obtain ⟨quote, body, hq, rfl, -⟩ := hread
      cases e
      exact absurd hq (by decide)
    | comment =>
      obtain ⟨body, rfl, -⟩ := hread
      cases e
    | newline => cases e
    | char c =>
      cases e
      rcases h _ rfl with h | h | h <;> exact absurd h (by decide)

/-- A sound document is cut into its pieces again. -/
theorem Document.Sound.read_print {d : Document} (h : d.Sound) :
    Document.read d.print = Document.ofPieces (d.pieces ++ [d.rest]) := by
  have hclear : Clear d.tokens := by
    rw [d.tokens_eq]
    exact clear_lines h.pieces h.clear
  have hhead : ∀ t, d.tokens.head? = some t →
      t.isGap = true ∨ t.isLabel = true ∨ t = .char '[' := fun t ht => by
    rw [d.tokens_eq] at ht
    cases hp : d.pieces with
    | nil =>
      rw [hp] at ht
      exact Or.inl (List.all_eq_true.1 h.gap t (List.mem_of_mem_head? ht))
    | cons p pieces =>
      obtain ⟨u, hu, hopens⟩ := (h.pieces p (by simp [hp])).head
      obtain ⟨tail, rfl⟩ := List.head?_eq_some_iff.1 hu
      rw [hp] at ht
      cases ht
      exact hopens
  rw [Document.read, Document.print, withoutMark_written hclear hhead, tokens_written hclear,
    d.tokens_eq]
  exact congrArg Document.ofPieces
    (splitStatements_lines (fun p hp => (h.pieces p hp).whole) h.gap)

theorem ofPieces_append {pieces : List (List Token)} {rest : List Token}
    (hr : rest.all Token.isGap = true) {xs : List Statement} {st : Document.State}
    (hx : pieces.mapM Statement.read = some xs)
    (hst : xs.foldlM Document.State.add {} = some st) :
    Document.ofPieces (pieces ++ [rest]) = some ⟨st.members, rest⟩ := by
  simp only [Document.ofPieces, List.getLast?_concat, Option.getD_some, hr, if_true,
    List.dropLast_concat, hx, hst, Option.bind_eq_bind, Option.bind_some]
  rfl

/-! ### Replaying what was written -/

/-- Whether pieces are read as statements that take each state of the one kind to one of the
other. -/
def Retraces (before after : Document.State → Prop) (pieces : List (List Token)) : Prop :=
  ∃ xs : List Statement, pieces.mapM Statement.read = some xs ∧ ∀ st, before st →
    ∃ st', xs.foldlM Document.State.add st = some st' ∧ after st'

theorem Retraces.append {before middle after : Document.State → Prop}
    {pieces pieces' : List (List Token)} (h : Retraces before middle pieces)
    (h' : Retraces middle after pieces') : Retraces before after (pieces ++ pieces') := by
  obtain ⟨xs, hxs, hrun⟩ := h
  obtain ⟨xs', hxs', hrun'⟩ := h'
  refine ⟨xs ++ xs', ?_, fun st hst => ?_⟩
  · rw [List.mapM_append, hxs, hxs']
    rfl
  · obtain ⟨st₁, h₁, hst₁⟩ := hrun st hst
    obtain ⟨st₂, h₂, hst₂⟩ := hrun' st₁ hst₁
    refine ⟨st₂, ?_, hst₂⟩
    rw [List.foldlM_append]
    exact Option.bind_eq_some_iff.2 ⟨st₁, h₁, h₂⟩

/-- Assignments on lines of their own are read as assignments like them. -/
theorem assignments_again {es : List (List Key × Literal)} (h : ∀ e ∈ es, OnLine e) :
    ∃ es', (es.map assignmentTokens).mapM Statement.read
        = some (es'.map fun e => .assignment e.1 e.2) ∧ List.Forall₂ Echoes es es' := by
  induction es with
  | nil => exact ⟨[], rfl, .nil⟩
  | cons e es ih =>
    rw [List.forall_mem_cons] at h
    obtain ⟨path, right, hread, he⟩ := h.1.again
    obtain ⟨es', hes, hall⟩ := ih h.2
    refine ⟨(path, right) :: es', ?_, .cons he hall⟩
    rw [List.map_cons, List.mapM_cons, hread, hes]
    rfl

/-- Assignments are made in the table that the last header named. -/
theorem foldlM_add_assignments (es : List (List Key × Literal)) {st : Document.State}
    {ms : Members} (h : es.foldlM (fun ms e => within st.header
      (define e.2.value e.2.tokens e.1) ms) st.members = some ms) :
    (es.map fun e => Statement.assignment e.1 e.2).foldlM Document.State.add st
      = some { st with members := ms } := by
  induction es generalizing st with
  | nil =>
    cases h
    rfl
  | cons e es ih =>
    obtain ⟨middle, hw, h⟩ := Option.bind_eq_some_iff.1 h
    exact Option.bind_eq_some_iff.2 ⟨{ st with members := middle },
      Option.bind_eq_some_iff.2 ⟨middle, hw, rfl⟩, ih h⟩

variable {d : Document}

/-- The values of the root table make a tree grow that has none so far. -/
theorem Document.Sound.body_again (h : d.Sound) :
    Retraces (fun st => st.header = [] ∧ Regrown 0 false st.members d.members)
      (fun st => Regrown 0 true st.members d.members)
      ((leavesOf [] d.members).map assignmentTokens) := by
  obtain ⟨es, hes, hall⟩ := assignments_again (onLine_of_mem_leavesOf h.members)
  refine ⟨_, hes, fun st ⟨hheader, hgrown⟩ => ?_⟩
  obtain ⟨ms, hd, hgrown⟩ := h.members.fill hall hgrown
  refine ⟨{ st with members := ms }, foldlM_add_assignments es ?_, hgrown⟩
  rw [hheader]
  exact hd

/-- A section takes a tree on that has grown up to its header. -/
theorem Document.Sound.section_again (h : d.Sound) {sec : Section}
    (hm : sec ∈ sectionsOf [] d.members) :
    Retraces (fun st => Regrown sec.place true st.members d.members)
      (fun st => Regrown (sec.place + 1) true st.members d.members) sec.pieces := by
  have hs := h.section hm
  obtain ⟨depth, hms⟩ := hs.members
  obtain ⟨path, hread, hnames⟩ := hs.again
  obtain ⟨es, hes, hall⟩ := assignments_again (onLine_of_mem_leavesOf hms)
  obtain ⟨n, hplaces⟩ := h.places
  refine ⟨_, by rw [Section.pieces, List.mapM_cons, hread, hes]; rfl, fun st hgrown => ?_⟩
  have hnodup : (placesOf d.members).Nodup := hplaces.nodup_iff.2 List.nodup_range
  obtain ⟨ms', he, hgrown⟩ := h.members.replay hnodup ⟨st.place, sec.heading.lead, sec.heading.tail⟩
    hm ⟨by simpa using hnames, hall⟩ hgrown
  obtain ⟨ms₁, ho, hd⟩ := Option.bind_eq_some_iff.1 he
  refine ⟨⟨path, st.place + 1, ms'⟩, ?_, hgrown⟩
  exact Option.bind_eq_some_iff.2 ⟨⟨path, st.place + 1, ms₁⟩,
    Option.bind_eq_some_iff.2 ⟨ms₁, ho, rfl⟩, foldlM_add_assignments es hd⟩

/-- Sections whose headers follow each other take a tree on from the first to the last. -/
theorem Document.Sound.sections_again (h : d.Sound) {secs : List Section} {k : Nat}
    (hm : ∀ sec ∈ secs, sec ∈ sectionsOf [] d.members)
    (hk : secs.map Section.place = List.range' k secs.length) :
    Retraces (fun st => Regrown k true st.members d.members)
      (fun st => Regrown (k + secs.length) true st.members d.members)
      (secs.flatMap Section.pieces) := by
  induction secs generalizing k with
  | nil => exact ⟨[], rfl, fun st hst => ⟨st, rfl, hst⟩⟩
  | cons sec secs ih =>
    rw [List.forall_mem_cons] at hm
    rw [List.map_cons, List.length_cons, List.range'_succ, List.cons.injEq] at hk
    obtain ⟨rfl, hk⟩ := hk
    have := (h.section_again hm.1).append (ih hm.2 hk)
    rw [List.flatMap_cons, List.length_cons]
    simpa only [Nat.add_assoc, Nat.add_comm 1] using this

/-- The sections of a sound document stand at the first places, in order. -/
theorem Document.Sound.map_place_sections (h : d.Sound) :
    (sections d.members).map Section.place = List.range (sections d.members).length := by
  obtain ⟨n, hn⟩ := h.places
  have hperm : ((sections d.members).map Section.place).Perm (List.range n) := by
    refine ((sections_perm _).map _).trans ?_
    rw [map_place_sectionsOf]
    exact hn
  have hlen : (sections d.members).length = n := by
    simpa using hperm.length_eq
  rw [hlen]
  refine List.Perm.eq_of_pairwise (fun _ _ _ _ => Nat.le_antisymm) ?_
    List.pairwise_le_range hperm
  exact List.pairwise_map.2 (sections_pairwise d.members)

/-- A sound document is read again, and says the same but for the order of members. -/
theorem Document.Sound.again (h : d.Sound) : ∃ d', Document.read d.print = some d' ∧
    TablesAlike d.values d'.values := by
  have hsections := h.sections_again (k := 0) (fun sec hm => (sections_perm _).mem_iff.1 hm)
    (by rw [h.map_place_sections, List.range_eq_range'])
  obtain ⟨xs, hxs, hrun⟩ := h.body_again.append hsections
  obtain ⟨st, hst, hgrown⟩ := hrun {} ⟨rfl, regrown_nil (by simp)⟩
  refine ⟨⟨st.members, d.rest⟩, ?_, ?_⟩
  · rw [h.read_print]
    exact ofPieces_append h.gap hxs hst
  · refine h.members.alike_of_regrown (fun p hp => ?_) hgrown
    rw [← map_place_sectionsOf [], ← ((sections_perm _).map _).mem_iff, h.map_place_sections,
      List.mem_range] at hp
    omega

end LintHost.Toml
