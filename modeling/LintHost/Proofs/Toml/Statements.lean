/-
LintHost/Proofs/Toml/Statements.lean

Statements that can be read again.  Reading a piece of a document gives a path and a
literal, or a header, with all that is needed to write it again (`sound_of_read`).  What
is written of it, at another place maybe and with keys that were met elsewhere, is a
whole piece (`OnLine.whole`, `SectionSound.whole`) that reads as the same names and a value
that is like it (`OnLine.again`, `SectionSound.again`).
-/
import LintHost.Proofs.Toml.Literals

namespace LintHost.Toml

open Statement

/-! ### Ends of lines -/

/-- Blanks and maybe a comment, told apart. -/
structure LineEnd (ts : List Token) : Prop where
  tail : isTail ts = true
  clear : Clear ts

theorem isTail_cons {ts : List Token} (h : isTail ts = true) :
    ts.all Token.isGap = true ∧ Token.newline ∉ ts := by
  unfold isTail at h
  have hsplit := List.takeWhile_append_dropWhile (p := Token.isBlank) (l := ts)
  have hblank : ∀ t ∈ ts.takeWhile Token.isBlank, t.isGap = true ∧ t ≠ .newline := fun t ht => by
    have := List.all_eq_true.1 (List.all_takeWhile (l := ts) (p := Token.isBlank)) t ht
    refine ⟨Token.isGap_of_isBlank this, ?_⟩
    rintro rfl
    cases this
  have hall : ∀ t ∈ ts, t.isGap = true ∧ t ≠ .newline := by
    rw [← hsplit]
    split at h
    · next hd => rwa [hd, List.append_nil]
    · next text hd =>
      rw [hd, List.forall_mem_append]
      exact ⟨hblank, by simp [Token.isGap]⟩
    · cases h
  exact ⟨List.all_eq_true.2 fun t ht => (hall t ht).1, fun hm => (hall _ hm).2 rfl⟩

theorem LineEnd.solid {ts : List Token} (h : LineEnd ts) : Solid 0 ts := by
  obtain ⟨hgap, hline⟩ := isTail_cons h.tail
  exact solid_of_flat (List.all_eq_true.2 fun t ht =>
    Token.isFlat_of_isGap (List.all_eq_true.1 hgap t ht)) fun _ => hline

theorem LineEnd.calm {ts : List Token} (h : LineEnd ts) : Calm ts := by
  simpa using calm_append gap_quoted (isTail_cons h.tail).1 calm_nil

theorem LineEnd.ends {ts : List Token} (h : LineEnd ts) : Ends ts := by
  simpa using ends_gap (isTail_cons h.tail).1 (Or.inl rfl)

theorem solid_of_blank {g : List Token} (h : g.all Token.isBlank = true) : Solid 0 g := by
  have hall := List.all_eq_true.1 h
  refine solid_of_flat (List.all_eq_true.2 fun t ht =>
    Token.isFlat_of_isGap (Token.isGap_of_isBlank (hall t ht))) fun _ hm => ?_
  exact absurd (hall _ hm) (by decide)

/-! ### What is asked of a document -/

/-- Whether tokens are those of a value that stands behind an equals sign to the end of its line. -/
inductive Lined (v : Value) : List Token → Prop where
  | intro {before tokens tail : List Token} (hb : before.all Token.isBlank = true)
      (hs : Steady maxDepth ⟨v, tokens⟩) (ht : LineEnd tail) :
      Lined v (before ++ tokens ++ tail)

/-- What is asked of the parts of a document's tree. -/
def lineMarks : Marks where
  leaf key v right := key.Fringed Token.isGap Token.isBlank ∧ Lined v right
  head key := key.Fringed Token.isBlank Token.isBlank
  heading h := FreeGap h.lead ∧ LineEnd h.tail

/-- Whether an assignment may stand on a line. -/
structure OnLine (e : List Key × Literal) : Prop where
  short : e.1.length ≤ maxParts
  path : PathSound e.1 (lineMarks.leaf · e.2.value e.2.tokens)

/-- Whether a statement can be written again. -/
def Statement.Sound : Statement → Prop
  | header lead _ path tail => path.length ≤ maxParts ∧ PathSound path lineMarks.head ∧
      FreeGap lead ∧ LineEnd tail
  | assignment path right => OnLine (path, right)

/-! ### Reading -/

/-- A gap on one line in front of something else is blank. -/
theorem Clear.blank {g ts : List Token} {t : Token} (h : Clear (g ++ t :: ts))
    (hg : g.all Token.isGap = true) (hn : Token.newline ∉ g) (ht : t ≠ .newline) :
    g.all Token.isBlank = true := by
  induction g with
  | nil => rfl
  | cons u g ih =>
    rw [List.all_cons, Bool.and_eq_true] at hg
    rw [List.mem_cons, not_or] at hn
    rw [List.all_cons, ih h.2.2 hg.2 hn.2, Bool.and_true]
    have hend := h.2.1
    cases u with
    | quoted | char => exact hg.1
    | newline => exact absurd rfl hn.1
    | comment text =>
      cases g with
      | nil => simp [Token.EndsAt, ht] at hend
      | cons w g =>
        have hw : w = .newline := by simpa [Token.EndsAt] using hend
        exact absurd (hw ▸ List.mem_cons_self) hn.2

/-- In a piece of a document only blanks stand between a path and its equals sign. -/
theorem PathIn.fringed_line {label right : List Token} {path : List Key}
    (h : PathIn Token.isGap label path) (hc : Clear (label ++ .char '=' :: right))
    (hr : Runs false 0 (label ++ .char '=' :: right)) :
    ∃ last, path.getLast? = some last ∧ last.Fringed Token.isGap Token.isBlank := by
  obtain ⟨last, hlast, hf⟩ := h.fringed (fun _ h => h) hc (by simp)
  obtain ⟨last', inner, hlast', rfl, hlead, hgap, hne, hhead, hinner⟩ := h.fringe
  obtain rfl : last = last' := Option.some.inj (hlast.symm.trans hlast')
  have hflat : (last.lead ++ inner).all Token.isFlat = true := List.all_eq_true.2 fun t ht => by
    rcases List.mem_append.1 ht with ht | ht
    · exact Token.isFlat_of_isGap (List.all_eq_true.1 hlead t ht)
    · rcases hinner t ht with h | h | rfl
      · exact Token.isFlat_of_isLabel h
      · exact Token.isFlat_of_isGap (Token.isGap_of_isBlank h)
      · rfl
  -- the statement has begun before the gap
  have hbegun : (last.lead ++ inner).any (!·.isGap) = true := by
    cases inner with
    | nil => exact absurd rfl hne
    | cons t inner => simp [hhead t rfl]
  rw [List.append_assoc] at hr hc
  have hrest := hr.right hflat
  rw [hbegun, Bool.or_true] at hrest
  exact ⟨last, hlast, hf.lead, hc.right.blank hgap (hrest.newline_not_mem hgap) (by simp),
    hf.looseLead, hf.looseGap⟩

theorem PathIn.pathSound {margin : Token → Bool} {label ts : List Token}
    {path : List Key} (h : PathIn margin label path) (hc : Clear (label ++ ts))
    {fits : Key → Prop} (hf : ∃ last, path.getLast? = some last ∧ fits last) :
    PathSound path fits :=
  ⟨h.legible fun t ht => hc.readable t (List.mem_append_left _ ht), hf⟩

theorem sound_of_readAssignment {label right : List Token} {st : Statement}
    (hc : Clear (label ++ .char '=' :: right)) (hr : Runs false 0 (label ++ .char '=' :: right))
    (h : readAssignment label right = some st) : st.Sound := by
  simp only [readAssignment, takeKind, Option.bind_eq_bind, Option.bind_eq_some_iff] at h
  obtain ⟨path, hpath, ⟨l, tail⟩, hl, h⟩ := h
  have hin := pathIn_of_readPath hpath
  have hright : Clear right := hc.right.2.2
  obtain ⟨hs, htail⟩ := steady_of_readValue maxDepth
    (hright.of_suffix (List.dropWhile_suffix _)) hl
  by_cases ht : isTail tail = true
  · simp only [ht, Bool.not_true, Bool.false_eq_true, if_false] at h
    cases h
    obtain ⟨last, hlast, hf⟩ := hin.fringed_line hc hr
    have htail : LineEnd tail :=
      ⟨ht, hright.of_suffix (htail.trans (List.dropWhile_suffix _))⟩
    exact ⟨hin.length_le, hin.pathSound hc ⟨last, hlast, hf, .intro List.all_takeWhile hs htail⟩⟩
  · simp [ht] at h

/-- What stands behind the closing brackets of a header, of which the first one has been read. -/
def afterClosing? (repeated : Bool) (ts : List Token) : Option (List Token) :=
  if repeated then
    match ts with
    | .char ']' :: ts => some ts
    | _ => none
  else some ts

theorem readHeader_eq (lead : List Token) (repeated : Bool) (ts : List Token) :
    readHeader lead repeated ts = (Text.splitFirst? (.char ']') ts).bind fun p =>
      (afterClosing? repeated p.2).bind fun tail =>
        if isTail tail then (readPath Token.isBlank p.1).map (header lead repeated · tail)
        else none := by
  rw [readHeader, Option.bind_eq_bind]
  congr 1
  funext ⟨inner, ts⟩
  have htail : ∀ tail, (do
      if !isTail tail then none
      return header lead repeated (← readPath Token.isBlank inner) tail : Option Statement)
      = if isTail tail then (readPath Token.isBlank inner).map (header lead repeated · tail)
        else none := fun tail => by
    cases isTail tail with
    | false => rfl
    | true => cases readPath Token.isBlank inner <;> rfl
  cases repeated with
  | false => exact htail ts
  | true =>
    by_cases h : ts.head? = some (.char ']')
    · obtain ⟨ts, rfl⟩ := List.head?_eq_some_iff.1 h
      exact htail ts
    · have hnone : afterClosing? true ts = none := by
        unfold afterClosing?
        rw [if_pos rfl]
        split
        · exact absurd rfl h
        · rfl
      rw [hnone]
      dsimp only
      rw [if_pos rfl]
      split
      · exact absurd rfl h
      · rfl

theorem sound_of_readHeader {lead ts : List Token} {repeated : Bool} {st : Statement}
    (hl : FreeGap lead) (hc : Clear ts) (h : readHeader lead repeated ts = some st) :
    st.Sound := by
  rw [readHeader_eq] at h
  obtain ⟨⟨inner, behind⟩, hsplit, hbehind⟩ := Option.bind_eq_some_iff.1 h
  obtain ⟨tail, hclosing, hread⟩ := Option.bind_eq_some_iff.1 hbehind
  obtain ⟨ht, hheader⟩ := Option.ite_none_right_eq_some.1 hread
  obtain ⟨path, hpath, e⟩ := Option.map_eq_some_iff.1 hheader
  subst e
  obtain ⟨rfl, -⟩ := Text.splitFirst?_eq_some_iff.1 hsplit
  have hsuffix : tail <:+ behind := by
    simp only [afterClosing?] at hclosing
    split at hclosing
    · split at hclosing <;> cases hclosing
      exact List.suffix_cons _ _
    · cases hclosing
      exact List.suffix_rfl
  have hin := pathIn_of_readPath hpath
  exact ⟨hin.length_le,
    hin.pathSound hc (hin.fringed (fun _ => Token.isGap_of_isBlank) hc (by simp)), hl, ht,
    hc.right.2.2.of_suffix hsuffix⟩

/-- What reading a piece of a document gives can be written again. -/
theorem sound_of_read {piece : List Token} {st : Statement} (hc : Clear piece)
    (hr : Runs false 0 piece) (h : Statement.read piece = some st) : st.Sound := by
  have hsplit := List.takeWhile_append_dropWhile (p := Token.isGap) (l := piece)
  have hrest := hc.of_suffix (List.dropWhile_suffix Token.isGap)
  simp only [Statement.read, takeKind] at h
  split at h
  · next rest hd =>
    exact sound_of_readHeader (hc.freeGap (by simp [hd])) (hd ▸ hrest).2.2.2.2 h
  · next rest hd =>
    exact sound_of_readHeader (hc.freeGap (by simp [hd])) (hd ▸ hrest).2.2 h
  · simp only [Option.bind_eq_bind, Option.bind_eq_some_iff] at h
    obtain ⟨⟨label, right⟩, hlabel, h⟩ := h
    obtain ⟨e, -⟩ := Text.splitFirst?_eq_some_iff.1 hlabel
    rw [e, ← List.append_assoc] at hsplit
    rw [← hsplit] at hc hr
    exact sound_of_readAssignment hc hr h

/-! ### Writing assignments -/

theorem Key.Fringed.gaps {leading : Token → Bool} {k : Key}
    (h : k.Fringed leading Token.isBlank) (hl : ∀ t, leading t = true → t.isGap = true) :
    k.Fringed Token.isGap Token.isGap :=
  h.mono hl fun _ => Token.isGap_of_isBlank

theorem solid_dotted {path : List Key} (h : ∀ k ∈ path, k.Legible) : Solid 0 (dotted path) := by
  have hall : ∀ t ∈ dotted path, t.isFlat = true ∧ t ≠ .newline := fun t ht => by
    rcases mem_dotted h ht with hl | hb | rfl
    · exact ⟨Token.isFlat_of_isLabel hl, by rintro rfl; cases hl⟩
    · exact ⟨Token.isFlat_of_isGap (Token.isGap_of_isBlank hb), by rintro rfl; cases hb⟩
    · exact ⟨rfl, by simp⟩
  exact solid_of_flat (List.all_eq_true.2 fun t ht => (hall t ht).1) fun _ hm => (hall _ hm).2 rfl

theorem Lined.solid {v : Value} {right : List Token} (h : Lined v right) : Solid 0 right := by
  obtain ⟨hb, hs, ht⟩ := h
  exact ((solid_of_blank hb).append hs.solid).append ht.solid

theorem Lined.clear {v : Value} {right : List Token} (h : Lined v right) : Clear right := by
  obtain ⟨hb, hs, ht⟩ := h
  rw [List.append_assoc]
  exact loose_blank hb _ (hs.sealed _ ht.calm ht.clear)

/-- A path that was read starts with the begin of a key. -/
theorem exists_dotted_cons {path : List Key} {last : Key} (h : ∀ k ∈ path, k.Legible)
    (hl : path.getLast? = some last) :
    ∃ t rest, dotted path = t :: rest ∧ t.isLabel = true := by
  cases path with
  | nil => cases hl
  | cons k path =>
    have hk := h k List.mem_cons_self
    obtain ⟨t, rest, e⟩ := List.exists_cons_of_ne_nil (dotted_ne_nil hk path)
    exact ⟨t, rest, e, head?_dotted hk path (by rw [e]; rfl)⟩

/-- What an assignment is written with: a gap, and tokens that start with the begin of a key. -/
theorem OnLine.tokens_eq {e : List Key × Literal} (h : OnLine e) :
    ∃ last t rest, e.1.getLast? = some last ∧ last.lead.all Token.isGap = true ∧
      t.isLabel = true ∧ assignmentTokens e = last.lead ++ t :: rest ∧ Solid 0 (t :: rest) := by
  obtain ⟨last, hlast, hf, hright⟩ := h.path.last
  obtain ⟨t, rest, he, ht⟩ := exists_dotted_cons h.path.legible hlast
  have hdotted := solid_dotted h.path.legible
  rw [he] at hdotted
  have hequals : Solid 0 [.char '='] := solid_of_flat rfl (by simp)
  refine ⟨last, t, rest ++ last.gap ++ .char '=' :: e.2.tokens, hlast, hf.lead, ht, ?_, ?_⟩
  · rw [assignmentTokens, pathTokens_of_getLast? hlast, he]
    simp
  · simpa using hdotted.append ((solid_of_blank hf.gap).append (hequals.append hright.solid))

/-- An assignment is cut off whole. -/
theorem OnLine.whole {e : List Key × Literal} (h : OnLine e) : Whole (assignmentTokens e) := by
  obtain ⟨last, t, rest, -, hlead, ht, he, hs⟩ := h.tokens_eq
  rw [he]
  exact whole_of_solid hlead rfl (Token.isGap_of_isLabel ht) hs

theorem OnLine.clear {e : List Key × Literal} (h : OnLine e) : Clear (assignmentTokens e) := by
  obtain ⟨last, hlast, hf, hright⟩ := h.path.last
  exact clear_pathTokens h.path.legible hlast hf blank_quoted
    (loose_char ⟨by decide, by decide, by decide⟩ _ hright.clear)

/-- What stands behind an equals sign is read as a value that is like its own. -/
theorem Lined.readAssignment {v : Value} {right label : List Token} (h : Lined v right)
    {path : List Key} (hp : readPath Token.isGap label = some path) : ∃ l,
      Statement.readAssignment label right = some (.assignment path l) ∧ v.Alike l.value := by
  obtain @⟨before, tokens, tail, hb, hs, ht⟩ := h
  obtain ⟨l, hl, halike⟩ := hs.again tail ht.ends
  obtain ⟨t, hhead, hstart⟩ := hs.head
  have hspan : takeKind Token.isBlank (before ++ tokens ++ tail) = (before, tokens ++ tail) := by
    rw [List.append_assoc]
    refine takeKind_append hb fun u hu => ?_
    rw [List.head?_append, hhead, Option.some_or, Option.some.injEq] at hu
    exact hu ▸ (Token.startsValue_ne hstart).2.1
  refine ⟨⟨l.value, before ++ l.tokens ++ tail⟩, ?_, halike⟩
  simp only [Statement.readAssignment, hp, hspan, hl, ht.tail, Option.bind_eq_bind,
    Option.bind_some, Bool.not_true, Bool.false_eq_true, if_false]
  rfl

/-- A piece that starts with the begin of a key is an assignment. -/
theorem read_of_label {ts lead rest : List Token} {t : Token}
    (h : takeKind Token.isGap ts = (lead, t :: rest)) (ht : t.isLabel = true) :
    Statement.read ts = (Text.splitFirst? (.char '=') (t :: rest)).bind fun p =>
      readAssignment (lead ++ p.1) p.2 := by
  rw [Statement.read, h]
  simp only
  split
  · next e => cases e; exact absurd ht (by decide)
  · next e => cases e; exact absurd ht (by decide)
  · rfl

/-- An assignment is read as one with the same names and a value that is like its own. -/
theorem OnLine.again {e : List Key × Literal} (h : OnLine e) : ∃ path right,
    Statement.read (assignmentTokens e) = some (.assignment path right) ∧
      Echoes e (path, right) := by
  obtain ⟨last, hlast, hf, hright⟩ := h.path.last
  have hgaps := hf.gaps fun _ h => h
  obtain ⟨path, hpath, hnames⟩ := readPath_pathTokens (fun _ => Token.isGap_of_isLabel) h.short
    h.path.legible hlast hgaps
  obtain ⟨l, hl, halike⟩ := hright.readAssignment hpath
  refine ⟨path, l, ?_, hnames, halike⟩
  obtain ⟨t, rest, he, ht⟩ := exists_dotted_cons h.path.legible hlast
  have htokens := pathTokens_of_getLast? hlast
  have hequals : .char '=' ∉ dotted e.1 ++ last.gap := fun hm => by
    have hm' : .char '=' ∈ pathTokens e.1 := by
      rw [htokens, List.append_assoc]
      exact List.mem_append_right _ hm
    rcases mem_pathTokens h.path.legible hlast hgaps hm' with h | h | h <;>
      exact absurd h (by decide)
  have hspan : takeKind Token.isGap (assignmentTokens e)
      = (last.lead, t :: (rest ++ last.gap ++ .char '=' :: e.2.tokens)) := by
    rw [assignmentTokens, htokens, List.append_assoc, List.append_assoc, he]
    rw [takeKind_append hf.lead (by rintro u ⟨⟩; exact Token.isGap_of_isLabel ht)]
    simp
  have hsplit : Text.splitFirst? (.char '=') (t :: (rest ++ last.gap ++ .char '=' :: e.2.tokens))
      = some (dotted e.1 ++ last.gap, e.2.tokens) :=
    Text.splitFirst?_eq_some_iff.2 ⟨by simp [he], hequals⟩
  rw [read_of_label hspan ht, hsplit, Option.bind_some, ← List.append_assoc, ← htokens, hl]

/-! ### Writing headers -/

/-- What a section starts with: its header. -/
def Section.headTokens (sec : Section) : List Token :=
  sec.heading.lead ++ brackets sec.repeated '[' ++ pathTokens sec.path
    ++ brackets sec.repeated ']' ++ sec.heading.tail

theorem Section.tokens_eq (sec : Section) :
    sec.tokens = sec.headTokens ++ .newline :: bodyTokens sec.members := by
  simp [Section.tokens, Section.headTokens]

theorem head?_brackets (repeated : Bool) (c : Char) (ts : List Token) :
    (brackets repeated c ++ ts).head? = some (.char c) := by
  cases repeated <;> rfl

theorem loose_brackets {c : Char} (hc : (Token.char c).Readable) (repeated : Bool) :
    Loose (brackets repeated c) :=
  loose_chars (fun _ ht => ⟨c, List.eq_of_mem_replicate ht⟩)
    fun _ ht => List.eq_of_mem_replicate ht ▸ hc

theorem solid_brackets (repeated : Bool) {ts : List Token} (h : Solid 0 ts) :
    Solid 0 (brackets repeated '[' ++ ts ++ brackets repeated ']') := by
  have hone : ∀ {ts : List Token}, Solid 0 ts → Solid 0 (.char '[' :: ts ++ [.char ']']) :=
    fun h => (h.mono (Nat.zero_le 1)).brackets (fun _ => rfl) fun _ => rfl
  cases repeated
  · exact hone h
  · simpa [brackets] using hone (hone h)

section Header

variable {sec : Section} {depth : Nat}

/-- A header is cut off whole. -/
theorem SectionSound.whole (h : SectionSound lineMarks depth sec.path sec) :
    Whole sec.headTokens := by
  obtain ⟨last, hlast, hf⟩ := h.legible.last
  have hpath : Solid 0 (pathTokens sec.path) := by
    rw [pathTokens_of_getLast? hlast]
    exact ((solid_of_blank hf.lead).append (solid_dotted h.legible.legible)).append
      (solid_of_blank hf.gap)
  have hbody := (solid_brackets sec.repeated hpath).append h.heading.2.solid
  have hwhole := whole_of_solid h.heading.1.gap (t := .char '[')
    (by rw [List.append_assoc, List.append_assoc, head?_brackets]) rfl hbody
  simpa [Section.headTokens] using hwhole

theorem SectionSound.clear (h : SectionSound lineMarks depth sec.path sec) :
    Clear sec.headTokens := by
  obtain ⟨last, hlast, hf⟩ := h.legible.last
  have hread : ∀ c, c = '[' ∨ c = ']' → (Token.char c).Readable := by
    rintro c (rfl | rfl) <;> exact ⟨by decide, by decide, by decide⟩
  have htail := loose_brackets (hread ']' (Or.inr rfl)) sec.repeated _ h.heading.2.clear
  have hpath : Clear (pathTokens sec.path ++ (brackets sec.repeated ']' ++ sec.heading.tail)) := by
    obtain ⟨rest, e⟩ := List.head?_eq_some_iff.1
      (head?_brackets sec.repeated ']' sec.heading.tail)
    rw [e] at htail ⊢
    exact clear_pathTokens h.legible.legible hlast hf blank_quoted htail
  have := h.heading.1.loose _ (loose_brackets (hread '[' (Or.inl rfl)) sec.repeated _ hpath)
  simpa [Section.headTokens] using this

theorem read_of_bracket {ts lead rest : List Token}
    (h : takeKind Token.isGap ts = (lead, .char '[' :: rest)) (hr : rest.head? ≠ some (.char '[')) :
    Statement.read ts = readHeader lead false rest := by
  rw [Statement.read, h]
  simp only
  split
  · next e => cases e; exact absurd rfl hr
  · next e => cases e; rfl
  · next hn => exact absurd rfl (hn _)

theorem read_of_brackets {ts lead rest : List Token}
    (h : takeKind Token.isGap ts = (lead, .char '[' :: .char '[' :: rest)) :
    Statement.read ts = readHeader lead true rest := by
  rw [Statement.read, h]
  rfl

/-- A header is read as one with the same names. -/
theorem SectionSound.again (h : SectionSound lineMarks depth sec.path sec) : ∃ path,
    Statement.read sec.headTokens
        = some (.header sec.heading.lead sec.repeated path sec.heading.tail) ∧
      path.map Key.name = sec.path.map Key.name := by
  obtain ⟨last, hlast, hf⟩ := h.legible.last
  have hlen : sec.path.length ≤ maxParts := by
    have := h.depth_le
    omega
  obtain ⟨path, hpath, hnames⟩ := readPath_pathTokens (fun _ => Token.isBlank_of_isLabel) hlen
    h.legible.legible hlast hf
  refine ⟨path, ?_, hnames⟩
  have hnot : ∀ c, c = '[' ∨ c = ']' → .char c ∉ pathTokens sec.path := fun c hc hm => by
    rcases mem_pathTokens h.legible.legible hlast (hf.gaps fun _ => Token.isGap_of_isBlank) hm
      with h | h | h <;> rcases hc with rfl | rfl <;> exact absurd h (by decide)
  obtain ⟨t, rest, ht, -⟩ := exists_dotted_cons h.legible.legible hlast
  have hne : pathTokens sec.path ≠ [] := by
    rw [pathTokens_of_getLast? hlast, ht]
    simp
  have hopen : ∀ ts : List Token, takeKind Token.isGap (sec.heading.lead ++ .char '[' :: ts)
      = (sec.heading.lead, .char '[' :: ts) := fun ts =>
    takeKind_append h.heading.1.gap (by rintro u ⟨⟩; rfl)
  have hread : ∀ rest, afterClosing? sec.repeated rest = some sec.heading.tail →
      readHeader sec.heading.lead sec.repeated (pathTokens sec.path ++ .char ']' :: rest)
        = some (.header sec.heading.lead sec.repeated path sec.heading.tail) := fun rest hrest => by
    rw [readHeader_eq, Text.splitFirst?_eq_some_iff.2 ⟨rfl, hnot ']' (Or.inr rfl)⟩,
      Option.bind_some, hrest, Option.bind_some, if_pos h.heading.2.tail, hpath, Option.map_some]
  cases hrep : sec.repeated with
  | false =>
    rw [hrep] at hread
    have htokens : sec.headTokens = sec.heading.lead ++
        .char '[' :: (pathTokens sec.path ++ .char ']' :: sec.heading.tail) := by
      simp [Section.headTokens, brackets, hrep]
    rw [htokens, read_of_bracket (hopen _), hread _ rfl]
    rw [List.head?_append_of_ne_nil _ hne]
    exact fun e => hnot '[' (Or.inl rfl) (List.mem_of_head? e)
  | true =>
    rw [hrep] at hread
    have htokens : sec.headTokens = sec.heading.lead ++ .char '[' ::
        .char '[' :: (pathTokens sec.path ++ .char ']' :: .char ']' :: sec.heading.tail) := by
      simp [Section.headTokens, brackets, hrep, List.replicate_succ]
    rw [htokens, read_of_brackets (hopen _), hread _ rfl]

end Header

end LintHost.Toml
