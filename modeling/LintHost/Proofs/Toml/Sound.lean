/-
LintHost/Proofs/Toml/Sound.lean

What is true of every tree of tables that statements build.  Names are told apart, a
table without a header is there for what is in it, values stand only where a header or a
dotted path puts them, paths keep within their bound, and the tables of an array have
come one after the other with all that is in them.
Main facts: assignments and headers keep trees sound (`MembersSound.assign`,
`MembersSound.openTable`), and every header brings one place (`places`).
-/
import LintHost.Proofs.Toml.Members
import LintHost.Proofs.Toml.Paths

namespace LintHost.Toml

/-! ### Places -/

mutual

/-- The places of the headers of a member and of what is in it. -/
def Node.places : Node → List Nat
  | .value _ _ => []
  | .table origin members => headed origin ++ placesOf members
  | .tables (heading, newest) older => heading.place :: placesOf newest ++ olderPlaces older
where
  /-- The place of the header of a table, if it has one. -/
  headed : Origin → List Nat
    | .header heading => [heading.place]
    | .implied | .dotted => []

/-- The places of the headers among members and in them. -/
def placesOf : List (Key × Node) → List Nat
  | [] => []
  | (_, node) :: rest => node.places ++ placesOf rest

/-- The places of the headers of tables of an array and in them. -/
def olderPlaces : List (Heading × List (Key × Node)) → List Nat
  | [] => []
  | (heading, members) :: rest => heading.place :: placesOf members ++ olderPlaces rest

end

theorem placesOf_eq (ms : Members) : placesOf ms = ms.flatMap (·.2.places) := by
  induction ms with
  | nil => rfl
  | cons m ms ih => rw [placesOf, ih, List.flatMap_cons]

/-- What one member brings is all that changes when it is put. -/
theorem placesOf_put {name : String} {ms : Members} {m : Key × Node} {more : List Nat}
    (h : m.2.places.Perm (more ++ ((node? name ms).map Node.places).getD [])) :
    (placesOf (put name m ms)).Perm (more ++ placesOf ms) := by
  rcases hm : member? name ms with - | old
  · rw [node?, hm] at h
    simp only [Option.map_none, Option.getD_none, List.append_nil] at h
    simp only [put_of_none hm, placesOf_eq, List.flatMap_append, List.flatMap_singleton]
    exact (List.Perm.append_left _ h).trans List.perm_append_comm
  · rw [node?, hm] at h
    simp only [Option.map_some, Option.getD_some] at h
    obtain ⟨before, after, rfl, hput⟩ := put_of_some hm
    simp only [hput, placesOf_eq, List.flatMap_append, List.flatMap_cons]
    have hmiddle := List.Perm.append_right (after.flatMap (·.2.places)) h
    rw [List.append_assoc] at hmiddle
    exact (List.Perm.append_left _ hmiddle).trans (List.perm_append_comm_assoc _ _ _)

/-! ### Sound trees -/

/-- Where a table stands: how many keys lie between it and the root, how many of them between it
and the header under which its values are written, and whether it may have values. -/
structure Site where
  depth : Nat
  reach : Nat
  hosts : Bool

/-- The place of the root table. -/
def Site.root : Site :=
  ⟨0, 0, true⟩

/-- What is asked of the parts of a tree: of values with their keys, of the keys of headers and of
the headers themselves. -/
structure Marks where
  leaf : Key → Value → List Token → Prop
  head : Key → Prop
  heading : Heading → Prop

/-- Where the members of a node stand. -/
def Site.inside (s : Site) : Node → Site
  | .table .implied _ => ⟨s.depth + 1, 0, false⟩
  | .table .dotted _ => ⟨s.depth + 1, s.reach + 1, true⟩
  | _ => ⟨s.depth + 1, 0, true⟩

/-- Whether the tables of an array came one after the other, the first of them last, each with all
that is in it before the next. -/
def Descending : List (Heading × Members) → Prop
  | [] => True
  | (heading, members) :: older => (∀ p ∈ placesOf members, heading.place < p) ∧
      (∀ p ∈ olderPlaces older, p < heading.place) ∧ Descending older

mutual

/-- Whether a member is what statements make of it. -/
def Node.Sound (M : Marks) (s : Site) (key : Key) : Node → Prop
  | .value v right => s.hosts = true ∧ s.reach < maxParts ∧ M.leaf key v right
  | .table .implied members => members ≠ [] ∧ membersSound M ⟨s.depth + 1, 0, false⟩ members
  | .table .dotted members => s.hosts = true ∧ members ≠ [] ∧
      membersSound M ⟨s.depth + 1, s.reach + 1, true⟩ members
  | .table (.header heading) members => s.depth < maxParts ∧ M.head key ∧ M.heading heading ∧
      membersSound M ⟨s.depth + 1, 0, true⟩ members
  | .tables (heading, newest) older => s.depth < maxParts ∧ M.head key ∧ M.heading heading ∧
      membersSound M ⟨s.depth + 1, 0, true⟩ newest ∧
      olderSound M ⟨s.depth + 1, 0, true⟩ older ∧ Descending ((heading, newest) :: older)

/-- Whether members are what statements make of them. -/
def membersSound (M : Marks) (s : Site) : List (Key × Node) → Prop
  | [] => True
  | (key, node) :: rest => key.Legible ∧ key.name ∉ names rest ∧ node.Sound M s key ∧
      membersSound M s rest

/-- Whether the older tables of an array are what statements make of them. -/
def olderSound (M : Marks) (s : Site) : List (Heading × List (Key × Node)) → Prop
  | [] => True
  | (heading, members) :: rest => M.heading heading ∧ membersSound M s members ∧
      olderSound M s rest

end

/-- Whether members are told apart by their names and each of them is sound. -/
structure MembersSound (M : Marks) (s : Site) (ms : Members) : Prop where
  nodup : (names ms).Nodup
  legible : ∀ m ∈ ms, m.1.Legible
  sound : ∀ m ∈ ms, m.2.Sound M s m.1

variable {M : Marks} {s : Site}

theorem membersSound_iff {ms : Members} : membersSound M s ms ↔ MembersSound M s ms := by
  induction ms with
  | nil => exact ⟨fun _ => ⟨List.nodup_nil, by simp, by simp⟩, fun _ => trivial⟩
  | cons m ms ih =>
    show (m.1.Legible ∧ m.1.name ∉ names ms ∧ m.2.Sound M s m.1 ∧ membersSound M s ms) ↔ _
    rw [ih]
    constructor
    · rintro ⟨hl, hn, hs, h⟩
      exact ⟨List.nodup_cons.2 ⟨hn, h.nodup⟩, List.forall_mem_cons.2 ⟨hl, h.legible⟩,
        List.forall_mem_cons.2 ⟨hs, h.sound⟩⟩
    · rintro ⟨hn, hl, hs⟩
      rw [names, List.map_cons, List.nodup_cons] at hn
      rw [List.forall_mem_cons] at hl hs
      exact ⟨hl.1, hn.1, hs.1, hn.2, hl.2, hs.2⟩

theorem olderSound_iff {older : List (Heading × Members)} :
    olderSound M s older ↔ ∀ e ∈ older, M.heading e.1 ∧ MembersSound M s e.2 := by
  induction older with
  | nil => exact ⟨fun _ _ h => absurd h List.not_mem_nil, fun _ => trivial⟩
  | cons e older ih =>
    show (M.heading e.1 ∧ membersSound M s e.2 ∧ olderSound M s older) ↔ _
    rw [ih, membersSound_iff, List.forall_mem_cons, and_assoc]

theorem sound_implied {key : Key} {ms : Members} :
    (Node.table .implied ms).Sound M s key ↔
      ms ≠ [] ∧ MembersSound M ⟨s.depth + 1, 0, false⟩ ms := by
  show (ms ≠ [] ∧ membersSound M ⟨s.depth + 1, 0, false⟩ ms) ↔ _
  rw [membersSound_iff]

theorem sound_dotted {key : Key} {ms : Members} :
    (Node.table .dotted ms).Sound M s key ↔
      s.hosts = true ∧ ms ≠ [] ∧ MembersSound M ⟨s.depth + 1, s.reach + 1, true⟩ ms := by
  show (s.hosts = true ∧ ms ≠ [] ∧ membersSound M ⟨s.depth + 1, s.reach + 1, true⟩ ms) ↔ _
  rw [membersSound_iff]

theorem sound_header {key : Key} {heading : Heading} {ms : Members} :
    (Node.table (.header heading) ms).Sound M s key ↔
      s.depth < maxParts ∧ M.head key ∧ M.heading heading ∧
        MembersSound M ⟨s.depth + 1, 0, true⟩ ms := by
  show (s.depth < maxParts ∧ M.head key ∧ M.heading heading ∧
    membersSound M ⟨s.depth + 1, 0, true⟩ ms) ↔ _
  rw [membersSound_iff]

theorem sound_tables {key : Key} {newest : Heading × Members}
    {older : List (Heading × Members)} :
    (Node.tables newest older).Sound M s key ↔
      s.depth < maxParts ∧ M.head key ∧
        (∀ e ∈ newest :: older, M.heading e.1 ∧ MembersSound M ⟨s.depth + 1, 0, true⟩ e.2) ∧
        Descending (newest :: older) := by
  show (s.depth < maxParts ∧ M.head key ∧ M.heading newest.1 ∧
    membersSound M ⟨s.depth + 1, 0, true⟩ newest.2 ∧
    olderSound M ⟨s.depth + 1, 0, true⟩ older ∧ Descending (newest :: older)) ↔ _
  rw [membersSound_iff, olderSound_iff, List.forall_mem_cons]
  tauto

theorem MembersSound.nil : MembersSound M s [] :=
  ⟨List.nodup_nil, by simp, by simp⟩

/-- Members before and after a change that brings headers at some places. -/
structure Grows (M : Marks) (s : Site) (more : List Nat) (ms ms' : Members) : Prop where
  sound : MembersSound M s ms'
  places : (placesOf ms').Perm (more ++ placesOf ms)
  ne_nil : ms' ≠ []

theorem MembersSound.grows_put {ms : Members} (h : MembersSound M s ms) {name : String}
    {m : Key × Node} {more : List Nat} (hname : m.1.name = name) (hl : m.1.Legible)
    (hs : m.2.Sound M s m.1)
    (hp : m.2.places.Perm (more ++ ((node? name ms).map Node.places).getD [])) :
    Grows M s more ms (put name m ms) := by
  have hch : Changed name m.2 ms (put name m ms) := ⟨m.1, hname, rfl⟩
  refine ⟨⟨hch.nodup h.nodup, fun x hx => ?_, fun x hx => ?_⟩, placesOf_put hp,
    put_ne_nil _ _ _⟩ <;> rcases mem_put h.nodup hx with rfl | ⟨hx, -⟩
  · exact hl
  · exact h.legible x hx
  · exact hs
  · exact h.sound x hx

/-- A member that is new. -/
theorem MembersSound.grows_new {ms : Members} (h : MembersSound M s ms) {key : Key} {n : Node}
    {more : List Nat} (hm : member? key.name ms = none) (hl : key.Legible)
    (hs : n.Sound M s key) (hp : n.places.Perm more) :
    Grows M s more ms (put key.name (key, n) ms) :=
  h.grows_put rfl hl hs (by rw [node?, hm]; simpa using hp)

/-- Another node in the place of one. -/
theorem MembersSound.grows_old {ms : Members} (h : MembersSound M s ms) {name : String} {k : Key}
    {n n' : Node} {more : List Nat} (hm : member? name ms = some (k, n)) (hs : n'.Sound M s k)
    (hp : n'.places.Perm (more ++ n.places)) : Grows M s more ms (put name (k, n') ms) := by
  obtain ⟨hk, hmem⟩ := member?_eq_some hm
  exact h.grows_put hk (show k.Legible from h.legible _ hmem) hs (by rw [node?, hm]; exact hp)

/-- In a table that has no values of its own it does not matter how far off its header is. -/
theorem MembersSound.of_not_hosts {ms : Members} {depth reach : Nat}
    (h : MembersSound M ⟨depth, reach, false⟩ ms) (other : Nat) (hosts : Bool) :
    MembersSound M ⟨depth, other, hosts⟩ ms := by
  refine ⟨h.nodup, h.legible, fun m hm => ?_⟩
  have hs := h.sound m hm
  rcases hn : m.2 with _ | ⟨_ | _ | _, _⟩ | _ <;> rw [hn] at hs
  · exact absurd hs.1 (by simp)
  · exact hs
  · exact absurd hs.1 (by simp)
  · exact hs
  · exact hs

/-- What a sound node has on the way of a header is sound where it stands. -/
theorem Node.Sound.inner {n : Node} {key : Key} (h : n.Sound M s key) {ms : Members}
    (hi : n.inner? = some ms) : MembersSound M (s.inside n) ms := by
  rcases n with _ | ⟨_ | _ | _, _⟩ | _
  · cases hi
  · cases hi
    exact (sound_implied.1 h).2
  · cases hi
    exact (sound_dotted.1 h).2.2
  · cases hi
    exact (sound_header.1 h).2.2.2
  · cases hi
    exact ((sound_tables.1 h).2.2.1 _ List.mem_cons_self).2

/-- A node stays sound if what is in it is changed soundly, and all headers that are new in it come
after those that it had. -/
theorem Node.Sound.withInner {n : Node} {key : Key} (h : n.Sound M s key) {ms ms' : Members}
    (hi : n.inner? = some ms) (hs : MembersSound M (s.inside n) ms') (hne : ms' ≠ [])
    (hp : ∀ p ∈ placesOf ms', p ∈ placesOf ms ∨ ∀ q ∈ n.places, q < p) :
    (n.withInner ms').Sound M s key := by
  rcases n with _ | ⟨_ | _ | _, _⟩ | ⟨⟨heading, newest⟩, older⟩
  · cases hi
  · exact sound_implied.2 ⟨hne, hs⟩
  · exact sound_dotted.2 ⟨(sound_dotted.1 h).1, hne, hs⟩
  · obtain ⟨hd, hk, hh, -⟩ := sound_header.1 h
    exact sound_header.2 ⟨hd, hk, hh, hs⟩
  · cases hi
    obtain ⟨hd, hk, he, hlt, hold⟩ := sound_tables.1 h
    rw [List.forall_mem_cons] at he
    refine sound_tables.2 ⟨hd, hk, List.forall_mem_cons.2 ⟨⟨he.1.1, hs⟩, he.2⟩, fun p hm => ?_,
      hold⟩
    rcases hp p hm with hm | hm
    · exact hlt p hm
    · exact hm _ (by simp [Node.places])

theorem inner?_withInner {n : Node} {ms : Members} (h : n.inner? = some ms) (ms' : Members) :
    (n.withInner ms').inner? = some ms' := by
  rcases n with _ | _ | ⟨⟨_, _⟩, _⟩
  · cases h
  · rfl
  · rfl

theorem inside_withInner (n : Node) (ms : Members) (s : Site) :
    s.inside (n.withInner ms) = s.inside n := by
  rcases n with _ | ⟨_ | _ | _, _⟩ | ⟨⟨_, _⟩, _⟩ <;> rfl

theorem places_withInner {n : Node} {ms ms' : Members} {more : List Nat} (h : n.inner? = some ms)
    (hp : (placesOf ms').Perm (more ++ placesOf ms)) :
    (n.withInner ms').places.Perm (more ++ n.places) := by
  rcases n with _ | ⟨origin, _⟩ | ⟨⟨heading, _⟩, older⟩
  · cases h
  · cases h
    exact (List.Perm.append_left _ hp).trans (List.perm_append_comm_assoc _ _ _)
  · cases h
    simp only [Node.withInner, Node.places, List.cons_append]
    refine (List.Perm.cons _ (List.Perm.append_right _ hp)).trans ?_
    rw [List.append_assoc]
    exact List.perm_middle.symm

/-- Where what is in a node grows, and all that is new in it comes after what it had, the members
grow. -/
theorem MembersSound.grows_inner {ms inner inner' : Members} (h : MembersSound M s ms)
    {name : String} {k : Key} {n : Node} {more : List Nat} (hm : member? name ms = some (k, n))
    (hi : n.inner? = some inner) (hg : Grows M (s.inside n) more inner inner')
    (hmore : ∀ p ∈ more, ∀ q ∈ n.places, q < p) :
    Grows M s more ms (put name (k, n.withInner inner') ms) := by
  have hsound := h.sound _ (member?_eq_some hm).2
  refine h.grows_old hm (hsound.withInner hi hg.sound hg.ne_nil fun p hp => ?_)
    (places_withInner hi hg.places)
  rcases List.mem_append.1 (hg.places.mem_iff.1 hp) with hp | hp
  · exact Or.inr (hmore p hp)
  · exact Or.inl hp

/-! ### Assignments -/

/-- The parts of a path that is written: legible keys, of which the last one fits what it names. -/
structure PathSound (path : List Key) (fits : Key → Prop) : Prop where
  legible : ∀ k ∈ path, k.Legible
  last : ∃ k, path.getLast? = some k ∧ fits k

theorem PathSound.tail {fits : Key → Prop} {key next : Key} {path : List Key}
    (h : PathSound (key :: next :: path) fits) : PathSound (next :: path) fits :=
  ⟨fun k hk => h.legible k (List.mem_cons_of_mem _ hk), by simpa using h.last⟩

/-- An assignment keeps the tree sound and brings no header. -/
theorem MembersSound.define {v : Value} {right : List Token} {path : List Key} {ms ms' : Members}
    (h : MembersSound M s ms) (hp : PathSound path (M.leaf · v right)) (hh : s.hosts = true)
    (hr : s.reach + path.length ≤ maxParts) (hd : define v right path ms = some ms') :
    Grows M s [] ms ms' := by
  induction path generalizing ms ms' s with
  | nil => cases hd
  | cons key path ih =>
    have hkey := hp.legible key List.mem_cons_self
    cases path with
    | nil =>
      rw [Toml.define, adjust_eq] at hd
      obtain ⟨m', hf, rfl⟩ := Option.map_eq_some_iff.1 hd
      rcases hm : member? key.name ms with - | m <;> rw [hm] at hf <;> cases hf
      obtain ⟨k, hk, hleaf⟩ := hp.last
      cases hk
      rw [List.length_singleton] at hr
      exact h.grows_new hm hkey ⟨hh, by omega, hleaf⟩ (List.Perm.refl _)
    | cons next path =>
      rw [List.length_cons] at hr
      rw [Toml.define, adjust_eq] at hd
      obtain ⟨m', hf, rfl⟩ := Option.map_eq_some_iff.1 hd
      -- where the path goes on its reach is one key further
      have hr' : (Site.mk (s.depth + 1) (s.reach + 1) true).reach + (next :: path).length
          ≤ maxParts := by
        simp only
        omega
      rcases hm : member? key.name ms with
        - | ⟨k, _ | ⟨_ | _ | _, inner⟩ | ⟨⟨heading, newest⟩, older⟩⟩ <;> rw [hm] at hf
      · -- the table is new
        obtain ⟨inner, hdef, rfl⟩ := Option.map_eq_some_iff.1 hf
        have hg := ih MembersSound.nil hp.tail rfl hr' hdef
        exact h.grows_new hm hkey (sound_dotted.2 ⟨hh, hg.ne_nil, hg.sound⟩) hg.places
      · cases hf
      · -- the table was implied, and had no values so far
        obtain ⟨inner', hdef, rfl⟩ := Option.map_eq_some_iff.1 hf
        have hold := (sound_implied.1 (h.sound _ (member?_eq_some hm).2)).2
        have hg := ih (hold.of_not_hosts _ _) hp.tail rfl hr' hdef
        exact h.grows_old hm (sound_dotted.2 ⟨hh, hg.ne_nil, hg.sound⟩) hg.places
      · obtain ⟨inner', hdef, rfl⟩ := Option.map_eq_some_iff.1 hf
        have hold := (h.sound _ (member?_eq_some hm).2).inner rfl
        exact h.grows_inner hm rfl (ih hold hp.tail rfl hr' hdef) (by simp)
      · cases hf
      · -- the path goes on in the newest table of an array
        simp only at hf
        split at hf
        · cases hf
        · obtain ⟨newest', hdef, rfl⟩ := Option.map_eq_some_iff.1 hf
          have hold := (h.sound _ (member?_eq_some hm).2).inner rfl
          have hreach : (s.inside (.tables (heading, newest) older)).reach + (next :: path).length
              ≤ maxParts := by
            simp only [Site.inside]
            omega
          exact h.grows_inner hm rfl (ih hold hp.tail rfl hreach hdef) (by simp)

/-! ### Headers -/

/-- Whether a header leads to a table that it or another header has set up. -/
def Leads : List Key → Members → Prop
  | [], _ => True
  | key :: path, ms => ∃ n inner, node? key.name ms = some n ∧ n.inner? = some inner ∧
      (path = [] → (s : Site) → s.inside n = ⟨s.depth + 1, 0, true⟩) ∧ Leads path inner

theorem behindHeader_eq_some {key : Key} {change : Change} {ms ms' : Members}
    (h : behindHeader key change ms = some ms') :
    (member? key.name ms = none ∧ ∃ inner', change [] = some inner' ∧
        ms' = put key.name (key, .table .implied inner') ms) ∨
      ∃ k n inner inner', member? key.name ms = some (k, n) ∧ n.inner? = some inner ∧
        change inner = some inner' ∧ ms' = put key.name (k, n.withInner inner') ms := by
  rw [behindHeader, adjust_eq] at h
  obtain ⟨m', hf, rfl⟩ := Option.map_eq_some_iff.1 h
  rcases hm : member? key.name ms with - | ⟨k, _ | ⟨origin, inner⟩ | ⟨⟨heading, newest⟩, older⟩⟩
    <;> rw [hm] at hf
  · obtain ⟨inner', hc, rfl⟩ := Option.map_eq_some_iff.1 hf
    exact Or.inl ⟨rfl, inner', hc, rfl⟩
  · cases hf
  · obtain ⟨inner', hc, rfl⟩ := Option.map_eq_some_iff.1 hf
    exact Or.inr ⟨k, _, inner, inner', rfl, rfl, hc, rfl⟩
  · obtain ⟨inner', hc, rfl⟩ := Option.map_eq_some_iff.1 hf
    exact Or.inr ⟨k, _, newest, inner', rfl, rfl, hc, rfl⟩

theorem mem_placesOf {ms : Members} {m : Key × Node} (hm : m ∈ ms) {q : Nat}
    (hq : q ∈ m.2.places) : q ∈ placesOf ms := by
  rw [placesOf_eq]
  exact List.mem_flatMap.2 ⟨m, hm, hq⟩

/-- Members whose headers all stand at places of their own share none. -/
theorem not_mem_places_of_ne {ms : Members} (hp : (placesOf ms).Nodup) {m m' : Key × Node}
    (hm : m ∈ ms) (hm' : m' ∈ ms) (hne : m' ≠ m) {q : Nat} (hq : q ∈ m.2.places) :
    q ∉ m'.2.places := by
  induction ms with
  | nil => cases hm
  | cons x ms ih =>
    rw [placesOf, List.nodup_append] at hp
    intro hq'
    rcases List.mem_cons.1 hm with rfl | h <;> rcases List.mem_cons.1 hm' with rfl | h'
    · exact hne rfl
    · exact hp.2.2 q hq q (mem_placesOf h' hq') rfl
    · exact hp.2.2 q hq' q (mem_placesOf h hq) rfl
    · exact ih hp.2.1 h h' hq'

theorem Node.mem_places_of_inner {n : Node} {ms : Members} (hi : n.inner? = some ms) {q : Nat}
    (hq : q ∈ placesOf ms) : q ∈ n.places := by
  rcases n with _ | _ | ⟨⟨_, _⟩, _⟩ <;> cases hi <;> simp [Node.places, hq]

/-- A change behind a header that leads on keeps the tree sound if it does so where it leads. -/
theorem MembersSound.within {header : List Key} {change : Change} {more : List Nat}
    {ms ms' : Members} (h : MembersSound M s ms) (hlead : Leads header ms)
    (hroot : header = [] → s.reach = 0 ∧ s.hosts = true)
    (hchange : ∀ depth inner inner', MembersSound M ⟨depth, 0, true⟩ inner →
      change inner = some inner' → Grows M ⟨depth, 0, true⟩ more inner inner')
    (hmore : ∀ p ∈ more, ∀ q ∈ placesOf ms, q < p)
    (hw : within header change ms = some ms') : Grows M s more ms ms' ∧ Leads header ms' := by
  induction header generalizing ms ms' s with
  | nil =>
    obtain ⟨depth, reach, hosts⟩ := s
    obtain ⟨rfl, rfl⟩ := hroot rfl
    exact ⟨hchange depth ms ms' h hw, trivial⟩
  | cons key header ih =>
    obtain ⟨n, inner, hn, hi, hend, hrest⟩ := hlead
    obtain ⟨hm, -⟩ | ⟨k, n', inner₁, inner', hm, hi', hc, rfl⟩ := behindHeader_eq_some hw
    · rw [node?, hm] at hn
      cases hn
    · rw [node?, hm, Option.map_some, Option.some.injEq] at hn
      obtain rfl : n = n' := hn.symm
      obtain rfl : inner = inner₁ := Option.some.inj (hi.symm.trans hi')
      have hmem := (member?_eq_some hm).2
      have hsound := h.sound _ hmem
      have hplaces : ∀ q ∈ n.places, q ∈ placesOf ms := fun q hq => mem_placesOf hmem hq
      obtain ⟨hg, hleads⟩ := ih (hsound.inner hi) hrest
        (fun e => by rw [hend e s]; exact ⟨rfl, rfl⟩)
        (fun p hp q hq => hmore p hp q (hplaces q (Node.mem_places_of_inner hi hq))) hc
      refine ⟨h.grows_inner hm hi hg fun p hp q hq => hmore p hp q (hplaces q hq),
        n.withInner inner', inner', ?_, inner?_withInner hi _, fun e s => ?_, hleads⟩
      · exact Changed.node?_self ⟨k, (member?_eq_some hm).1, rfl⟩
      · rw [inside_withInner]
        exact hend e s

/-- An assignment under a header keeps the tree sound. -/
theorem MembersSound.assign {header path : List Key} {v : Value} {right : List Token}
    {ms ms' : Members} (h : MembersSound M .root ms) (hlead : Leads header ms)
    (hp : PathSound path (M.leaf · v right)) (hlen : path.length ≤ maxParts)
    (hw : Toml.within header (Toml.define v right path) ms = some ms') :
    Grows M .root [] ms ms' ∧ Leads header ms' :=
  h.within hlead (fun _ => ⟨rfl, rfl⟩)
    (fun depth _ _ hs hd => hs.define hp rfl (by simpa using hlen) hd) (by simp) hw

theorem openTable_singleton (repeated : Bool) (heading : Heading) (key : Key) :
    openTable repeated heading [key]
      = if repeated then appendNew heading key else setUp heading key := rfl

theorem openTable_cons (repeated : Bool) (heading : Heading) (key next : Key) (path : List Key) :
    openTable repeated heading (key :: next :: path)
      = behindHeader key (openTable repeated heading (next :: path)) := by
  unfold openTable
  rw [List.getLast?_cons_cons]
  cases hl : (next :: path).getLast? with
  | none => simp at hl
  | some last => rfl

/-- A header that sets up a table keeps the tree sound. -/
theorem MembersSound.setUp {heading : Heading} {key : Key} {ms ms' : Members}
    (h : MembersSound M s ms) (hl : key.Legible) (hk : M.head key) (hh : M.heading heading)
    (hd : s.depth < maxParts) (hs : setUp heading key ms = some ms') :
    Grows M s [heading.place] ms ms' ∧ Leads [key] ms' := by
  rw [Toml.setUp, adjust_eq] at hs
  obtain ⟨m', hf, rfl⟩ := Option.map_eq_some_iff.1 hs
  rcases hm : member? key.name ms with - | ⟨k, _ | ⟨_ | _ | _, inner⟩ | ⟨⟨_, _⟩, _⟩⟩ <;>
    rw [hm] at hf <;> cases hf
  · exact ⟨h.grows_new hm hl (sound_header.2 ⟨hd, hk, hh, .nil⟩) (List.Perm.refl _), _, [],
      Changed.node?_self ⟨key, rfl, rfl⟩, rfl, fun _ _ => rfl, trivial⟩
  · have hinner := (sound_implied.1 (h.sound _ (member?_eq_some hm).2)).2
    refine ⟨h.grows_put rfl hl (sound_header.2 ⟨hd, hk, hh, hinner.of_not_hosts 0 true⟩) ?_, _,
      inner, Changed.node?_self ⟨key, rfl, rfl⟩, rfl, fun _ _ => rfl, trivial⟩
    rw [node?, hm]
    exact List.Perm.refl _

/-- A header that adds a table to an array keeps the tree sound. -/
theorem MembersSound.appendNew {heading : Heading} {key : Key} {ms ms' : Members}
    (h : MembersSound M s ms) (hl : key.Legible) (hk : M.head key) (hh : M.heading heading)
    (hd : s.depth < maxParts) (hnew : ∀ q ∈ placesOf ms, q < heading.place)
    (hs : appendNew heading key ms = some ms') :
    Grows M s [heading.place] ms ms' ∧ Leads [key] ms' := by
  rw [Toml.appendNew, adjust_eq] at hs
  obtain ⟨m', hf, rfl⟩ := Option.map_eq_some_iff.1 hs
  rcases hm : member? key.name ms with - | ⟨k, _ | ⟨_, _⟩ | ⟨newest, older⟩⟩ <;>
    rw [hm] at hf <;> cases hf
  · have hsound : (Node.tables (heading, []) []).Sound M s key :=
      sound_tables.2 ⟨hd, hk, by simpa using ⟨hh, .nil⟩, by simp [placesOf], by simp [olderPlaces],
        trivial⟩
    exact ⟨h.grows_new hm hl hsound (List.Perm.refl _), _, [],
      Changed.node?_self ⟨key, rfl, rfl⟩, rfl, fun _ _ => rfl, trivial⟩
  · obtain ⟨hname, hmem⟩ := member?_eq_some hm
    obtain ⟨-, hk', he, hdesc⟩ := sound_tables.1 (h.sound _ hmem)
    have hlt : ∀ p ∈ olderPlaces (newest :: older), p < heading.place :=
      fun p hp => hnew p (mem_placesOf hmem hp)
    have hsound : (Node.tables (heading, []) (newest :: older)).Sound M s k :=
      sound_tables.2 ⟨hd, hk', List.forall_mem_cons.2 ⟨⟨hh, .nil⟩, he⟩, by simp [placesOf], hlt,
        hdesc⟩
    exact ⟨h.grows_old hm hsound (List.Perm.refl _), _, [], Changed.node?_self ⟨k, hname, rfl⟩,
      rfl, fun _ _ => rfl, trivial⟩

/-- A header keeps the tree sound and leads to the table that it sets up. -/
theorem MembersSound.openTable {repeated : Bool} {heading : Heading} {path : List Key}
    {ms ms' : Members} (h : MembersSound M s ms) (hp : PathSound path M.head)
    (hh : M.heading heading) (hd : s.depth + path.length ≤ maxParts)
    (hnew : ∀ q ∈ placesOf ms, q < heading.place)
    (ho : openTable repeated heading path ms = some ms') :
    Grows M s [heading.place] ms ms' ∧ Leads path ms' := by
  induction path generalizing ms ms' s with
  | nil => cases ho
  | cons key path ih =>
    have hkey := hp.legible key List.mem_cons_self
    cases path with
    | nil =>
      obtain ⟨k, hk, hhead⟩ := hp.last
      cases hk
      rw [List.length_singleton] at hd
      rw [openTable_singleton] at ho
      cases repeated
      · exact h.setUp hkey hhead hh (by omega) ho
      · exact h.appendNew hkey hhead hh (by omega) hnew ho
    | cons next path =>
      rw [List.length_cons] at hd
      rw [openTable_cons] at ho
      obtain ⟨hm, inner', hc, rfl⟩ | ⟨k, n, inner, inner', hm, hi, hc, rfl⟩ :=
        behindHeader_eq_some ho
      · -- the way to the table is new, so it is implied
        obtain ⟨hg, hlead⟩ := ih (s := ⟨s.depth + 1, 0, false⟩) MembersSound.nil hp.tail
          (by simp only; omega) (by simp [placesOf]) hc
        refine ⟨h.grows_new hm hkey (sound_implied.2 ⟨hg.ne_nil, hg.sound⟩) ?_, _, inner',
          Changed.node?_self ⟨key, rfl, rfl⟩, rfl, by simp, hlead⟩
        simpa [Node.places, Node.places.headed, placesOf] using hg.places
      · obtain ⟨hname, hmem⟩ := member?_eq_some hm
        have hsound := h.sound _ hmem
        have hplaces : ∀ q ∈ n.places, q < heading.place :=
          fun q hq => hnew q (mem_placesOf hmem hq)
        have hdepth : (s.inside n).depth = s.depth + 1 := by
          rcases n with _ | ⟨_ | _ | _, _⟩ | _ <;> rfl
        obtain ⟨hg, hlead⟩ := ih (hsound.inner hi) hp.tail (by rw [hdepth]; omega)
          (fun q hq => hplaces q (Node.mem_places_of_inner hi hq)) hc
        refine ⟨h.grows_inner hm hi hg fun p hq => ?_, n.withInner inner', inner',
          Changed.node?_self ⟨k, hname, rfl⟩, inner?_withInner hi _, by simp, hlead⟩
        rwa [List.mem_singleton.1 hq]

end LintHost.Toml
