/-
LintHost/Proofs/Toml/Leaves.lean

What is written of a tree, as data.  A leaf is a value with the path under which it
stands among the values of its table; the entries of a table are its leaves in their
tokens (`entriesOf_eq`).  The leaves and sections of a sound tree have paths that can be
read again (`MembersSound.leaf`, `MembersSound.section`), and the sections have the
places of the headers (`map_place_sectionsOf`).
-/
import LintHost.Proofs.Toml.Sound

namespace LintHost.Toml

/-! ### Leaves -/

mutual

/-- The values that are written with a member, with their paths. -/
def Node.leaves (path : List Key) : Node → List (List Key × Literal)
  | .value v right => [(path, ⟨v, right⟩)]
  | .table .dotted members => leavesOf path members
  | .table _ _ | .tables _ _ => []

/-- The values that are written with the members of a table, with their paths. -/
def leavesOf (path : List Key) : List (Key × Node) → List (List Key × Literal)
  | [] => []
  | (key, node) :: rest => node.leaves (path ++ [key]) ++ leavesOf path rest

end

/-- The tokens of an assignment. -/
def assignmentTokens (e : List Key × Literal) : List Token :=
  pathTokens e.1 ++ .char '=' :: e.2.tokens

theorem leavesOf_eq (path : List Key) (ms : Members) :
    leavesOf path ms = ms.flatMap fun m => m.2.leaves (path ++ [m.1]) := by
  induction ms with
  | nil => rfl
  | cons m ms ih => rw [leavesOf, ih, List.flatMap_cons]

theorem mem_leavesOf {path : List Key} {ms : Members} {e : List Key × Literal} :
    e ∈ leavesOf path ms ↔ ∃ m ∈ ms, e ∈ m.2.leaves (path ++ [m.1]) := by
  rw [leavesOf_eq, List.mem_flatMap]

theorem entriesOf_eq_flatMap (path : List Key) (ms : Members) :
    entriesOf path ms = ms.flatMap fun m => m.2.entries (path ++ [m.1]) := by
  induction ms with
  | nil => rfl
  | cons m ms ih => rw [entriesOf, ih, List.flatMap_cons]

theorem Node.entries_eq (n : Node) (path : List Key) :
    n.entries path = (n.leaves path).map assignmentTokens := by
  induction n using Node.members_induction generalizing path with
  | value v right => rfl
  | table origin ms ih =>
    rcases origin with _ | _ | _
    · rfl
    · rw [Node.entries, Node.leaves, entriesOf_eq_flatMap, leavesOf_eq, List.map_flatMap]
      exact List.flatMap_congr fun m hm => ih m hm _
    · rfl
  | tables newest older => rfl

/-- The entries of a table are its leaves in their tokens. -/
theorem entriesOf_eq (path : List Key) (ms : Members) :
    entriesOf path ms = (leavesOf path ms).map assignmentTokens := by
  rw [entriesOf_eq_flatMap, leavesOf_eq, List.map_flatMap]
  exact List.flatMap_congr fun m _ => m.2.entries_eq _

theorem Node.leaves_append (n : Node) (path more : List Key) :
    n.leaves (path ++ more) = (n.leaves more).map fun e => (path ++ e.1, e.2) := by
  induction n using Node.members_induction generalizing more with
  | value v right => rfl
  | table origin ms ih =>
    rcases origin with _ | _ | _
    · rfl
    · rw [Node.leaves, Node.leaves, leavesOf_eq, leavesOf_eq, List.map_flatMap]
      exact List.flatMap_congr fun m hm => by rw [List.append_assoc, ih m hm]
    · rfl
  | tables newest older => rfl

/-- Where the path starts that is written does not matter to what comes behind. -/
theorem leavesOf_append (path more : List Key) (ms : Members) :
    leavesOf (path ++ more) ms = (leavesOf more ms).map fun e => (path ++ e.1, e.2) := by
  rw [leavesOf_eq, leavesOf_eq, List.map_flatMap]
  exact List.flatMap_congr fun m _ => by rw [List.append_assoc, Node.leaves_append]

variable {M : Marks} {s : Site}

theorem PathSound.cons {fits : Key → Prop} {key : Key} {path : List Key} (hl : key.Legible)
    (h : PathSound path fits) : PathSound (key :: path) fits := by
  obtain ⟨hlegible, k, hk, hfits⟩ := h
  refine ⟨List.forall_mem_cons.2 ⟨hl, hlegible⟩, k, ?_, hfits⟩
  cases path with
  | nil => cases hk
  | cons next path => rwa [List.getLast?_cons_cons]

theorem Node.Sound.leaf {n : Node} {key : Key} {path : List Key} {e : List Key × Literal}
    (h : n.Sound M s key) (hl : key.Legible) (he : e ∈ n.leaves path) :
    ∃ q, e.1 = path ++ q ∧ PathSound (key :: q) (M.leaf · e.2.value e.2.tokens) ∧
      s.reach + (key :: q).length ≤ maxParts := by
  induction n using Node.members_induction generalizing s key path with
  | value v right =>
    rw [List.mem_singleton.1 he]
    obtain ⟨-, hr, hleaf⟩ := h
    exact ⟨[], by simp, ⟨by simpa using hl, key, rfl, hleaf⟩, Nat.succ_le_of_lt hr⟩
  | table origin ms ih =>
    rcases origin with _ | _ | _
    · cases he
    · obtain ⟨m, hm, he⟩ := mem_leavesOf.1 he
      have hms := (sound_dotted.1 h).2.2
      obtain ⟨q, hq, hp, hr⟩ := ih m hm (hms.sound m hm) (hms.legible m hm) he
      refine ⟨m.1 :: q, by rw [hq, List.append_assoc, List.singleton_append], hp.cons hl, ?_⟩
      simp only [List.length_cons] at hr ⊢
      omega
    · cases he
  | tables newest older => cases he

/-- A leaf of a sound table has a path that can be read again. -/
theorem MembersSound.leaf {ms : Members} (h : MembersSound M s ms) {e : List Key × Literal}
    (he : e ∈ leavesOf [] ms) : PathSound e.1 (M.leaf · e.2.value e.2.tokens) ∧
      s.reach + e.1.length ≤ maxParts := by
  obtain ⟨m, hm, he⟩ := mem_leavesOf.1 he
  obtain ⟨q, hq, hp, hr⟩ := (h.sound m hm).leaf (h.legible m hm) he
  rw [hq]
  exact ⟨hp, hr⟩

/-- A member without headers has values of its own. -/
theorem Node.Sound.leaves_ne_nil {n : Node} {key : Key} (h : n.Sound M s key)
    (hp : n.places = []) (path : List Key) : s.hosts = true ∧ n.leaves path ≠ [] := by
  induction n using Node.members_induction generalizing s key path with
  | value v right => exact ⟨h.1, by simp [Node.leaves]⟩
  | table origin ms ih =>
    rw [Node.places, List.append_eq_nil_iff] at hp
    -- its first member has values
    have hfirst : ∀ {s : Site} (path : List Key), MembersSound M s ms → ms ≠ [] →
        s.hosts = true ∧ leavesOf path ms ≠ [] := by
      intro s path hs hne
      cases ms with
      | nil => exact absurd rfl hne
      | cons m ms =>
        rw [placesOf, List.append_eq_nil_iff] at hp
        obtain ⟨hh, hl⟩ := ih m List.mem_cons_self (hs.sound m List.mem_cons_self) hp.2.1
          (path ++ [m.1])
        exact ⟨hh, by simp [leavesOf, hl]⟩
    rcases origin with _ | _ | heading
    · obtain ⟨hne, hs⟩ := sound_implied.1 h
      exact absurd (hfirst path hs hne).1 (by simp)
    · obtain ⟨hh, hne, hs⟩ := sound_dotted.1 h
      exact ⟨hh, (hfirst path hs hne).2⟩
    · cases hp.1
  | tables newest older => cases hp

/-- A table without headers in it has values unless it is empty. -/
theorem MembersSound.leavesOf_ne_nil {ms : Members} (h : MembersSound M s ms)
    (hp : placesOf ms = []) (hne : ms ≠ []) (path : List Key) : leavesOf path ms ≠ [] := by
  cases ms with
  | nil => exact absurd rfl hne
  | cons m ms =>
    rw [placesOf, List.append_eq_nil_iff] at hp
    have := ((h.sound m List.mem_cons_self).leaves_ne_nil hp.1 (path ++ [m.1])).2
    simp [leavesOf, this]

/-! ### Sections -/

theorem sectionsOf_eq (path : List Key) (ms : Members) :
    sectionsOf path ms = ms.flatMap fun m => m.2.sections (path ++ [m.1]) := by
  induction ms with
  | nil => rfl
  | cons m ms ih => rw [sectionsOf, ih, List.flatMap_cons]

theorem mem_sectionsOf {path : List Key} {ms : Members} {sec : Section} :
    sec ∈ sectionsOf path ms ↔ ∃ m ∈ ms, sec ∈ m.2.sections (path ++ [m.1]) := by
  rw [sectionsOf_eq, List.mem_flatMap]

/-- The sections of one table of an array. -/
def elementSections (path : List Key) (e : Heading × Members) : List Section :=
  ⟨e.1, true, path, e.2⟩ :: sectionsOf path e.2

theorem olderSections_eq (path : List Key) (older : List (Heading × Members)) :
    olderSections path older = older.flatMap (elementSections path) := by
  induction older with
  | nil => rfl
  | cons e older ih => rw [olderSections, ih, List.flatMap_cons, elementSections]

theorem sections_tables (path : List Key) (newest : Heading × Members)
    (older : List (Heading × Members)) :
    (Node.tables newest older).sections path
      = (newest :: older).flatMap (elementSections path) := by
  rw [Node.sections, olderSections_eq, List.flatMap_cons, elementSections]

/-- The place of a section. -/
abbrev Section.place (sec : Section) : Nat :=
  sec.heading.place

theorem Node.map_place_sections (n : Node) (path : List Key) :
    (n.sections path).map Section.place = n.places := by
  have hms : ∀ (ms : Members) (path : List Key),
      (∀ m ∈ ms, ∀ path, (m.2.sections path).map Section.place = m.2.places) →
      (sectionsOf path ms).map Section.place = placesOf ms := by
    intro ms path h
    rw [sectionsOf_eq, placesOf_eq, List.map_flatMap]
    exact List.flatMap_congr fun m hm => h m hm _
  induction n using Node.members_induction generalizing path with
  | value v right => rfl
  | table origin ms ih =>
    rcases origin with _ | _ | _ <;>
      simp [Node.sections, Node.places, Node.places.headed, sectionOf?, hms ms path ih]
  | tables newest older ih =>
    have holder : ∀ es : List (Heading × Members), (∀ e ∈ es, ∀ m ∈ e.2, ∀ path,
        (m.2.sections path).map Section.place = m.2.places) →
        (es.flatMap (elementSections path)).map Section.place = olderPlaces es := by
      intro es hes
      induction es with
      | nil => rfl
      | cons e es ih =>
        rw [List.forall_mem_cons] at hes
        simp [elementSections, olderPlaces, hms e.2 path hes.1, ih hes.2]
    rw [sections_tables, holder _ ih]
    rfl

/-- The sections of a tree have the places of its headers. -/
theorem map_place_sectionsOf (path : List Key) (ms : Members) :
    (sectionsOf path ms).map Section.place = placesOf ms := by
  rw [sectionsOf_eq, placesOf_eq, List.map_flatMap]
  exact List.flatMap_congr fun m _ => m.2.map_place_sections _

/-- What there is to know of a section of a sound tree: its path goes on from where the tree stands
and can be read again, and its table is sound. -/
structure SectionSound (M : Marks) (depth : Nat) (path : List Key) (sec : Section) : Prop where
  legible : PathSound path M.head
  depth_le : depth + path.length ≤ maxParts
  heading : M.heading sec.heading
  members : ∃ depth, MembersSound M ⟨depth, 0, true⟩ sec.members

theorem SectionSound.cons {depth : Nat} {key : Key} {path : List Key} {sec : Section}
    (h : SectionSound M (depth + 1) path sec) (hl : key.Legible) :
    SectionSound M depth (key :: path) sec := by
  have := h.depth_le
  exact ⟨h.legible.cons hl, by rw [List.length_cons]; omega, h.heading, h.members⟩

theorem sectionSound_singleton {key : Key} {sec : Section} {depth : Nat} (hl : key.Legible)
    (hk : M.head key) (hd : depth < maxParts) (hh : M.heading sec.heading)
    (hm : MembersSound M ⟨depth + 1, 0, true⟩ sec.members) : SectionSound M depth [key] sec :=
  ⟨⟨by simpa using hl, key, rfl, hk⟩, Nat.succ_le_of_lt hd, hh, _, hm⟩

/-- If members have sound sections then so does the table of them, with paths that go on with one
of its keys. -/
theorem MembersSound.section_of {ms : Members} (h : MembersSound M s ms) {path : List Key}
    {sec : Section}
    (hms : ∀ m ∈ ms, ∀ path, m.2.Sound M s m.1 → m.1.Legible → sec ∈ m.2.sections path →
      ∃ q, sec.path = path ++ q ∧ SectionSound M s.depth (m.1 :: q) sec)
    (hsec : sec ∈ sectionsOf path ms) :
    ∃ q, sec.path = path ++ q ∧ SectionSound M s.depth q sec := by
  obtain ⟨m, hm, hsec⟩ := mem_sectionsOf.1 hsec
  obtain ⟨q, hq, hsec⟩ := hms m hm _ (h.sound m hm) (h.legible m hm) hsec
  exact ⟨m.1 :: q, by rw [hq, List.append_assoc, List.singleton_append], hsec⟩

theorem Node.Sound.section {n : Node} {key : Key} {path : List Key} {sec : Section}
    (h : n.Sound M s key) (hl : key.Legible) (hsec : sec ∈ n.sections path) :
    ∃ q, sec.path = path ++ q ∧ SectionSound M s.depth (key :: q) sec := by
  induction n using Node.members_induction generalizing s key path with
  | value v right => cases hsec
  | table origin ms ih =>
    rw [Node.sections, List.mem_append] at hsec
    have hms : MembersSound M (s.inside (.table origin ms)) ms := h.inner rfl
    have hdepth : (s.inside (.table origin ms)).depth = s.depth + 1 := by
      rcases origin with _ | _ | _ <;> rfl
    rcases hsec with hsec | hsec
    · rcases origin with _ | _ | heading
      · cases hsec
      · cases hsec
      · obtain ⟨hd, hk, hh, hm⟩ := sound_header.1 h
        obtain rfl := by simpa [sectionOf?] using hsec
        exact ⟨[], by simp, sectionSound_singleton hl hk hd hh hm⟩
    · obtain ⟨q, hq, hsec⟩ := hms.section_of (fun m hm _ hs hl hsec => ih m hm hs hl hsec) hsec
      rw [hdepth] at hsec
      exact ⟨q, hq, hsec.cons hl⟩
  | tables newest older ih =>
    obtain ⟨hd, hk, he, -⟩ := sound_tables.1 h
    rw [sections_tables] at hsec
    obtain ⟨e, hmem, hsec⟩ := List.mem_flatMap.1 hsec
    obtain ⟨hh, hm⟩ := he e hmem
    rcases List.mem_cons.1 hsec with rfl | hsec
    · exact ⟨[], by simp, sectionSound_singleton hl hk hd hh hm⟩
    · obtain ⟨q, hq, hsec⟩ :=
        hm.section_of (fun m hm _ hs hl hsec => ih e hmem m hm hs hl hsec) hsec
      exact ⟨q, hq, hsec.cons hl⟩

/-- A section of a sound tree has a path that can be read again, and a sound table. -/
theorem MembersSound.section {ms : Members} (h : MembersSound M s ms) {sec : Section}
    (hsec : sec ∈ sectionsOf [] ms) : SectionSound M s.depth sec.path sec := by
  obtain ⟨q, hq, hsec⟩ := h.section_of (fun m _ _ hs hl hsec => hs.section hl hsec) hsec
  rw [hq]
  exact hsec

end LintHost.Toml
