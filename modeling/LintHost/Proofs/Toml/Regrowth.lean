/-
LintHost/Proofs/Toml/Regrowth.lean

A tree grows again from what is written of it.  While its sections are replayed in the
order of their headers the tree that they make stands in a fixed relation to the one
that was written (`Regrown`): a table is set up once its header was met, has its values
from then on, and until then may be there for what is in it.  The values of one table
(`MembersSound.fill`) and one section (`MembersSound.replay`) take the relation a step
on; in the end the two trees are alike (`MembersSound.alike_of_regrown`).
-/
import LintHost.Proofs.Toml.Alike
import LintHost.Proofs.Toml.Leaves

namespace LintHost.Toml

/-! ### The relation -/

/-- Whether members are told apart and have no other names than those of a table. -/
structure Covers (now final : Members) : Prop where
  nodup : (names now).Nodup
  subset : ∀ x ∈ names now, x ∈ names final

mutual

/-- What a name stands for before the header at place `k` is met, for a member of the tree that
was written.  `ready` says that the values of its table have been met. -/
def Node.GrownTo (k : Nat) (ready : Bool) (now : Option Node) : Node → Prop
  | .value v _ =>
    if ready then ∃ w right, now = some (.value w right) ∧ v.Alike w else now = none
  | .table .implied members => ∃ inner, dottedInner? now = some inner ∧ Covers inner members ∧
      membersRegrown k false inner members
  | .table .dotted members => ∃ inner, dottedInner? now = some inner ∧ Covers inner members ∧
      membersRegrown k ready inner members
  | .table (.header heading) members =>
    if heading.place < k then
      ∃ origin inner, now = some (.table origin inner) ∧ Covers inner members ∧
        membersRegrown k true inner members
    else
      ∃ inner, (now = none ∧ inner = [] ∨ now = some (.table .implied inner)) ∧
        Covers inner members ∧ membersRegrown k false inner members
  | .tables (heading, newest) older =>
    ∃ elements, now = arrayOf elements ∧
      if heading.place < k then
        ∃ e rest, elements = e :: rest ∧ Covers e.2 newest ∧ membersRegrown k true e.2 newest ∧
          olderRegrown k rest older
      else olderRegrown k elements older

/-- What the members stand for. -/
def membersRegrown (k : Nat) (ready : Bool) (now : Members) : List (Key × Node) → Prop
  | [] => True
  | (key, node) :: rest => node.GrownTo k ready (node? key.name now) ∧
      membersRegrown k ready now rest

/-- What there is of an array of tables. -/
def olderRegrown (k : Nat) (elements : List (Heading × Members)) :
    List (Heading × List (Key × Node)) → Prop
  | [] => elements = []
  | (heading, members) :: older =>
    if heading.place < k then
      ∃ e rest, elements = e :: rest ∧ Covers e.2 members ∧ membersRegrown k true e.2 members ∧
        olderRegrown k rest older
    else olderRegrown k elements older

end

/-- What has grown of a table before the header at place `k` is met. -/
structure Regrown (k : Nat) (ready : Bool) (now final : Members) : Prop where
  covers : Covers now final
  members : ∀ m ∈ final, m.2.GrownTo k ready (node? m.1.name now)

theorem membersRegrown_iff {k : Nat} {ready : Bool} {now final : Members} :
    membersRegrown k ready now final ↔
      ∀ m ∈ final, m.2.GrownTo k ready (node? m.1.name now) := by
  induction final with
  | nil => exact ⟨fun _ _ h => absurd h List.not_mem_nil, fun _ => trivial⟩
  | cons m final ih =>
    show (m.2.GrownTo k ready (node? m.1.name now) ∧ membersRegrown k ready now final) ↔ _
    rw [ih, List.forall_mem_cons]

theorem regrown_iff {k : Nat} {ready : Bool} {now final : Members} :
    Regrown k ready now final ↔ Covers now final ∧ membersRegrown k ready now final := by
  rw [membersRegrown_iff]
  exact ⟨fun h => ⟨h.1, h.2⟩, fun h => ⟨h.1, h.2⟩⟩

variable {k : Nat} {ready : Bool} {now : Option Node}

theorem grownTo_implied {ms : Members} : (Node.table .implied ms).GrownTo k ready now ↔
    ∃ inner, dottedInner? now = some inner ∧ Regrown k false inner ms := by
  show (∃ inner, dottedInner? now = some inner ∧ Covers inner ms ∧
    membersRegrown k false inner ms) ↔ _
  simp only [regrown_iff]

theorem grownTo_dotted {ms : Members} : (Node.table .dotted ms).GrownTo k ready now ↔
    ∃ inner, dottedInner? now = some inner ∧ Regrown k ready inner ms := by
  show (∃ inner, dottedInner? now = some inner ∧ Covers inner ms ∧
    membersRegrown k ready inner ms) ↔ _
  simp only [regrown_iff]

theorem grownTo_header_of_lt {heading : Heading} {ms : Members} (h : heading.place < k) :
    (Node.table (.header heading) ms).GrownTo k ready now ↔
      ∃ origin inner, now = some (.table origin inner) ∧ Regrown k true inner ms := by
  show (if heading.place < k then _ else _) ↔ _
  simp only [if_pos h, regrown_iff]

theorem grownTo_header_of_le {heading : Heading} {ms : Members} (h : k ≤ heading.place) :
    (Node.table (.header heading) ms).GrownTo k ready now ↔
      ∃ inner, (now = none ∧ inner = [] ∨ now = some (.table .implied inner)) ∧
        Regrown k false inner ms := by
  show (if heading.place < k then _ else _) ↔ _
  simp only [if_neg (Nat.not_lt.2 h), regrown_iff]

theorem grownTo_tables {newest : Heading × Members} {older : List (Heading × Members)} :
    (Node.tables newest older).GrownTo k ready now ↔
      ∃ elements, now = arrayOf elements ∧ olderRegrown k elements (newest :: older) :=
  Iff.rfl

theorem olderRegrown_of_lt {elements older : List (Heading × Members)} {e : Heading × Members}
    (h : e.1.place < k) : olderRegrown k elements (e :: older) ↔
      ∃ e' rest, elements = e' :: rest ∧ Regrown k true e'.2 e.2 ∧ olderRegrown k rest older := by
  show (if e.1.place < k then _ else _) ↔ _
  simp only [if_pos h, regrown_iff, and_assoc]

theorem olderRegrown_of_le {elements older : List (Heading × Members)} {e : Heading × Members}
    (h : k ≤ e.1.place) :
    olderRegrown k elements (e :: older) ↔ olderRegrown k elements older := by
  show (if e.1.place < k then _ else _) ↔ _
  rw [if_neg (Nat.not_lt.2 h)]

/-! ### Places that do not matter -/

/-- A header elsewhere does not matter to members if it does not to each of them. -/
theorem regrown_succ_of {ms : Members} (h : ∀ m ∈ ms, ∀ {ready : Bool} {now : Option Node},
      k ∉ m.2.places → (m.2.GrownTo k ready now ↔ m.2.GrownTo (k + 1) ready now))
    (hk : k ∉ placesOf ms) (ready : Bool) (now : Members) :
    Regrown k ready now ms ↔ Regrown (k + 1) ready now ms := by
  have hm : ∀ m ∈ ms, (m.2.GrownTo k ready (node? m.1.name now) ↔
      m.2.GrownTo (k + 1) ready (node? m.1.name now)) :=
    fun m hm => h m hm fun hp => hk (mem_placesOf hm hp)
  exact ⟨fun h => ⟨h.covers, fun m hmem => (hm m hmem).1 (h.members m hmem)⟩,
    fun h => ⟨h.covers, fun m hmem => (hm m hmem).2 (h.members m hmem)⟩⟩

theorem olderRegrown_succ_of {final : List (Heading × Members)}
    (h : ∀ e ∈ final, ∀ m ∈ e.2, ∀ {ready : Bool} {now : Option Node},
      k ∉ m.2.places → (m.2.GrownTo k ready now ↔ m.2.GrownTo (k + 1) ready now))
    (hk : k ∉ olderPlaces final) (elements : List (Heading × Members)) :
    olderRegrown k elements final ↔ olderRegrown (k + 1) elements final := by
  induction final generalizing elements with
  | nil => rfl
  | cons e final ih =>
    rw [List.forall_mem_cons] at h
    simp only [olderPlaces, List.cons_append, List.mem_append, List.mem_cons, not_or] at hk
    have hms := regrown_succ_of h.1 hk.2.1
    rcases Nat.lt_or_ge e.1.place k with hlt | hge
    · rw [olderRegrown_of_lt hlt, olderRegrown_of_lt (Nat.lt_succ_of_lt hlt)]
      simp only [hms, ih h.2 hk.2.2]
    · rw [olderRegrown_of_le hge, olderRegrown_of_le (by have := hk.1; omega), ih h.2 hk.2.2]

/-- A header elsewhere does not matter. -/
theorem Node.grownTo_succ {n : Node} (hk : k ∉ n.places) :
    n.GrownTo k ready now ↔ n.GrownTo (k + 1) ready now := by
  induction n using Node.members_induction generalizing ready now with
  | value v right => simp only [Node.GrownTo]
  | table origin ms ih =>
    rw [Node.places, List.mem_append, not_or] at hk
    have hms := regrown_succ_of ih hk.2
    rcases origin with _ | _ | heading
    · simp only [grownTo_implied, hms]
    · simp only [grownTo_dotted, hms]
    · have hne : k ≠ heading.place := fun e => hk.1 (by simp [Node.places.headed, e])
      rcases Nat.lt_or_ge heading.place k with hlt | hge
      · simp only [grownTo_header_of_lt hlt, grownTo_header_of_lt (Nat.lt_succ_of_lt hlt), hms]
      · rw [grownTo_header_of_le hge, grownTo_header_of_le (by omega)]
        simp only [hms]
  | tables newest older ih =>
    rw [grownTo_tables, grownTo_tables]
    exact exists_congr fun elements => and_congr_right fun _ =>
      olderRegrown_succ_of ih hk elements

theorem regrown_succ {ms : Members} (hk : k ∉ placesOf ms) {ready : Bool} {now : Members} :
    Regrown k ready now ms ↔ Regrown (k + 1) ready now ms :=
  regrown_succ_of (fun _ _ _ _ hk => Node.grownTo_succ hk) hk ready now

theorem olderRegrown_succ {final : List (Heading × Members)} (hk : k ∉ olderPlaces final)
    {elements : List (Heading × Members)} :
    olderRegrown k elements final ↔ olderRegrown (k + 1) elements final :=
  olderRegrown_succ_of (fun _ _ _ _ _ _ hk => Node.grownTo_succ hk) hk elements

/-- Before any header of a table, and without its values, nothing of it is there. -/
theorem Node.grownTo_none {n : Node} (hk : ∀ p ∈ n.places, k ≤ p) : n.GrownTo k false none := by
  have hms : ∀ {ms : Members}, (∀ p ∈ placesOf ms, k ≤ p) →
      (∀ m ∈ ms, (∀ p ∈ m.2.places, k ≤ p) → m.2.GrownTo k false none) →
      Regrown k false [] ms := fun hk ih =>
    ⟨⟨List.nodup_nil, by simp [names]⟩, fun m hm => ih m hm fun p hp => hk p (mem_placesOf hm hp)⟩
  induction n using Node.members_induction with
  | value v right => simp [Node.GrownTo]
  | table origin ms ih =>
    rw [Node.places] at hk
    have hms := hms (fun p hp => hk p (List.mem_append_right _ hp)) ih
    rcases origin with _ | _ | heading
    · exact grownTo_implied.2 ⟨[], rfl, hms⟩
    · exact grownTo_dotted.2 ⟨[], rfl, hms⟩
    · exact (grownTo_header_of_le (hk _ (by simp [Node.places.headed]))).2
        ⟨[], Or.inl ⟨rfl, rfl⟩, hms⟩
  | tables newest older ih =>
    refine grownTo_tables.2 ⟨[], rfl, ?_⟩
    change ∀ p ∈ olderPlaces (newest :: older), k ≤ p at hk
    generalize newest :: older = final at hk
    induction final with
    | nil => rfl
    | cons e final ih =>
      rw [olderRegrown_of_le (hk _ (by simp [olderPlaces]))]
      exact ih fun p hp => hk p (by simp [olderPlaces, hp])

theorem regrown_nil {ms : Members} (hk : ∀ p ∈ placesOf ms, k ≤ p) : Regrown k false [] ms :=
  ⟨⟨List.nodup_nil, by simp [names]⟩,
    fun _ hm => Node.grownTo_none fun p hp => hk p (mem_placesOf hm hp)⟩

/-! ### Changes that concern some names only -/

/-- Members before and after changes that concern some names only. -/
structure Frame (only : List String) (ms ms' : Members) : Prop where
  same : ∀ x, x ∉ only → node? x ms' = node? x ms
  nodup : (names ms).Nodup → (names ms').Nodup
  names : ∀ x ∈ names ms', x ∈ only ∨ x ∈ names ms

theorem Frame.refl (only : List String) (ms : Members) : Frame only ms ms :=
  ⟨fun _ _ => rfl, id, fun _ h => Or.inr h⟩

theorem Frame.trans {a b : List String} {ms ms' ms'' : Members} (h : Frame a ms ms')
    (h' : Frame b ms' ms'') : Frame (a ++ b) ms ms'' := by
  refine ⟨fun x hx => ?_, fun hn => h'.nodup (h.nodup hn), fun x hx => ?_⟩
  · rw [List.mem_append, not_or] at hx
    rw [h'.same x hx.2, h.same x hx.1]
  · rw [List.mem_append, or_right_comm]
    exact (h'.names x hx).elim Or.inr fun hx => (h.names x hx).elim (fun h => Or.inl (Or.inl h))
      fun h => Or.inl (Or.inr h)

theorem Changed.frame {name : String} {n : Node} {ms ms' : Members} (h : Changed name n ms ms') :
    Frame [name] ms ms' :=
  ⟨fun _ hx => h.node?_of_ne (by simpa using hx), h.nodup,
    fun _ hx => (h.mem_names_iff.1 hx).imp_left (by simp)⟩

theorem Frame.covers {only : List String} {ms ms' final : Members} (h : Frame only ms ms')
    (hc : Covers ms final) (ho : ∀ x ∈ only, x ∈ Toml.names final) : Covers ms' final :=
  ⟨h.nodup hc.nodup, fun x hx => (h.names x hx).elim (ho x) (hc.subset x)⟩

/-! ### The values of a table -/

/-- Whether an assignment is read as another one: with the same names and a value that is like
it. -/
def Echoes (e e' : List Key × Literal) : Prop :=
  e'.1.map Key.name = e.1.map Key.name ∧ e.2.value.Alike e'.2.value

/-- Makes assignments in turn. -/
def defineAll (es : List (List Key × Literal)) : Change :=
  fun ms => es.foldlM (fun ms e => define e.2.value e.2.tokens e.1 ms) ms

theorem defineAll_append {es es' : List (List Key × Literal)} {ms ms' ms'' : Members}
    (h : defineAll es ms = some ms') (h' : defineAll es' ms' = some ms'') :
    defineAll (es ++ es') ms = some ms'' := by
  rw [defineAll, List.foldlM_append]
  exact Option.bind_eq_some_iff.2 ⟨ms', h, h'⟩

variable {M : Marks} {s : Site}

/-- Whether the assignments of a member make it grow. -/
def Fills (k : Nat) (m : Key × Node) : Prop :=
  ∀ {es : List (List Key × Literal)} {ms : Members}, List.Forall₂ Echoes (m.2.leaves [m.1]) es →
    m.2.GrownTo k false (node? m.1.name ms) →
    ∃ ms', defineAll es ms = some ms' ∧ Frame [m.1.name] ms ms' ∧
      m.2.GrownTo k true (node? m.1.name ms')

/-- If the assignments of each member make it grow, all of them in turn do so with all members. -/
theorem defineAll_members {final : Members} (hn : (names final).Nodup)
    (hm : ∀ m ∈ final, Fills k m) {es : List (List Key × Literal)}
    (hes : List.Forall₂ Echoes (leavesOf [] final) es)
    {ms : Members} (h : ∀ m ∈ final, m.2.GrownTo k false (node? m.1.name ms)) :
    ∃ ms', defineAll es ms = some ms' ∧ Frame (names final) ms ms' ∧
      ∀ m ∈ final, m.2.GrownTo k true (node? m.1.name ms') := by
  induction final generalizing es ms with
  | nil =>
    cases hes
    exact ⟨ms, rfl, Frame.refl _ _, by simp⟩
  | cons m final ih =>
    rw [names, List.map_cons, List.nodup_cons] at hn
    rw [List.forall_mem_cons] at hm h
    obtain ⟨es₁, es₂, rfl, h₁, h₂⟩ := Text.exists_append_of_forall₂ hes
    obtain ⟨ms₁, hms₁, hf₁, hg₁⟩ := hm.1 h₁ h.1
    -- the assignments of one member leave the others as they were
    have hsame : ∀ m' ∈ final, node? m'.1.name ms₁ = node? m'.1.name ms := fun m' hm' =>
      hf₁.same _ fun hx => hn.1 (List.mem_singleton.1 hx ▸ List.mem_map_of_mem hm')
    obtain ⟨ms₂, hms₂, hf₂, hg₂⟩ := ih hn.2 hm.2 h₂ fun m' hm' => by
      rw [hsame m' hm']
      exact h.2 m' hm'
    refine ⟨ms₂, defineAll_append hms₁ hms₂, hf₁.trans hf₂, List.forall_mem_cons.2 ⟨?_, hg₂⟩⟩
    rwa [hf₂.same _ hn.1]

/-- The assignments of the members of a table make it grow, if it came about by dotted paths. -/
theorem fill_dotted {members : Members} {key : Key} (hs : MembersSound M s members)
    (hm : ∀ m ∈ members, Fills k m) : Fills k (key, .table .dotted members) := by
  intro es ms hes hg
  obtain ⟨inner, hi, hinner⟩ := grownTo_dotted.1 hg
  change List.Forall₂ Echoes (leavesOf ([key] ++ []) members) es at hes
  rw [leavesOf_append, List.forall₂_map_left_iff] at hes
  -- without the name of the table the assignments are those of its members
  have htails : List.Forall₂ Echoes (leavesOf [] members) (es.map fun e => (e.1.tail, e.2)) := by
    rw [List.forall₂_map_right_iff]
    refine hes.imp fun e e' he => ⟨?_, he.2⟩
    rw [List.map_tail, he.1]
    rfl
  obtain ⟨inner', hd, hf, hall⟩ := defineAll_members hs.nodup hm htails hinner.members
  have hgrown : Regrown k true inner' members :=
    ⟨hf.covers hinner.covers fun _ hx => hx, hall⟩
  by_cases hne : es = []
  · subst hne
    cases hd
    exact ⟨ms, rfl, Frame.refl _ _, grownTo_dotted.2 ⟨inner, hi, hgrown⟩⟩
  · obtain ⟨ms', hms', hc⟩ := foldlM_define_next hne (fun e he => by
      obtain ⟨l, hl, hnames, -⟩ := Text.exists_of_mem_right hes e he
      obtain ⟨-, last, hlast, -⟩ := (hs.leaf hl).1
      rcases hpath : l.1 with - | ⟨a, rest⟩
      · rw [hpath] at hlast
        cases hlast
      · rw [hpath] at hnames
        obtain ⟨key', _, he, hkey, htail⟩ := List.map_eq_cons_iff.1 hnames
        obtain ⟨next, path, rfl, -, -⟩ := List.map_eq_cons_iff.1 htail
        exact ⟨key', next, path, he, hkey⟩) hi hd
    exact ⟨ms', hms', hc.frame, grownTo_dotted.2 ⟨inner', by rw [hc.node?_self]; rfl, hgrown⟩⟩

/-- The assignments of a member make it grow. -/
theorem Node.Sound.fill {n : Node} {key : Key} (h : n.Sound M s key) : Fills k (key, n) := by
  induction n using Node.members_induction generalizing s key with
  | value v right =>
    intro es ms hes hg
    obtain ⟨e, _, ⟨hnames, hv⟩, hnil, rfl⟩ := List.forall₂_cons_left_iff.1 hes
    obtain rfl := List.forall₂_nil_left_iff.1 hnil
    obtain ⟨path, right'⟩ := e
    obtain ⟨key', rfl, hkey⟩ := List.map_eq_singleton_iff.1 hnames
    rw [Node.GrownTo, if_neg (by simp)] at hg
    change node? key.name ms = none at hg
    change key'.name = key.name at hkey
    change ∃ ms', _ ∧ Frame [key.name] ms ms' ∧ Node.GrownTo _ _ (node? key.name ms') _
    rw [← hkey] at hg ⊢
    obtain ⟨ms', hd, hc⟩ := define_last right'.value right'.tokens hg
    refine ⟨ms', ?_, hc.frame, ?_⟩
    · exact Option.bind_eq_some_iff.2 ⟨ms', hd, rfl⟩
    · rw [Node.GrownTo, if_pos rfl]
      exact ⟨_, _, hc.node?_self, hv⟩
  | table origin members ih =>
    rcases origin with _ | _ | heading
    · intro es ms hes hg
      cases hes
      exact ⟨ms, rfl, Frame.refl _ _, grownTo_implied.2 (grownTo_implied.1 hg)⟩
    · obtain ⟨-, -, hs⟩ := sound_dotted.1 h
      exact fill_dotted hs fun m hm => ih m hm (hs.sound m hm)
    · intro es ms hes hg
      cases hes
      refine ⟨ms, rfl, Frame.refl _ _, ?_⟩
      rcases Nat.lt_or_ge heading.place k with hlt | hge
      · exact (grownTo_header_of_lt hlt).2 ((grownTo_header_of_lt hlt).1 hg)
      · exact (grownTo_header_of_le hge).2 ((grownTo_header_of_le hge).1 hg)
  | tables newest older =>
    intro es ms hes hg
    cases hes
    exact ⟨ms, rfl, Frame.refl _ _, grownTo_tables.2 (grownTo_tables.1 hg)⟩

/-- The assignments of a table make its values grow. -/
theorem MembersSound.fill {final : Members} (h : MembersSound M s final)
    {es : List (List Key × Literal)} (hes : List.Forall₂ Echoes (leavesOf [] final) es)
    {ms : Members} (hg : Regrown k false ms final) :
    ∃ ms', defineAll es ms = some ms' ∧ Regrown k true ms' final := by
  obtain ⟨ms', hd, hf, hall⟩ := defineAll_members h.nodup (fun m hm => (h.sound m hm).fill) hes
    hg.members
  exact ⟨ms', hd, hf.covers hg.covers fun _ hx => hx, hall⟩

/-! ### Sections -/

/-- Sets up the table of a header and makes the assignments under it. -/
def enter (repeated : Bool) (heading : Heading) (path : List Key)
    (es : List (List Key × Literal)) : Change := fun ms =>
  (openTable repeated heading path ms).bind fun ms =>
    es.foldlM (fun ms e => within path (define e.2.value e.2.tokens e.1) ms) ms

section Enter

variable {heading : Heading} {key : Key} {es : List (List Key × Literal)}
  {ms inner inner' : Members}

/-- Below the first key of its path a section is replayed as it is further in. -/
theorem enter_behind {repeated : Bool} {next : Key} {path : List Key}
    (hi : inner? (node? key.name ms) = some inner)
    (he : enter repeated heading (next :: path) es inner = some inner') :
    ∃ ms', enter repeated heading (key :: next :: path) es ms = some ms' ∧
      Changed key.name (refilled inner' (node? key.name ms)) ms ms' := by
  obtain ⟨middle, ho, hd⟩ := Option.bind_eq_some_iff.1 he
  obtain ⟨ms₁, hms₁, hc₁⟩ := behindHeader_of_inner hi ho
  have hself := hc₁.node?_self
  obtain ⟨ms₂, hms₂, hc₂⟩ := foldlM_behindHeader key
    (fun e => within (next :: path) (define e.2.value e.2.tokens e.1)) es
    (by rw [hself]; simp) (by rw [hself]; exact inner?_refilled hi middle) hd
  refine ⟨ms₂, ?_, ?_⟩
  · rw [enter, openTable_cons]
    exact Option.bind_eq_some_iff.2 ⟨ms₁, hms₁, hms₂⟩
  · rw [hself, refilled_refilled] at hc₂
    exact hc₁.trans hc₂

/-- The assignments under a header of one key are made in the table that it names. -/
theorem foldlM_within_singleton {n : Node} (hn : node? key.name ms = some n)
    (hi : n.inner? = some inner) (hd : defineAll es inner = some inner') :
    ∃ ms', es.foldlM (fun ms e => within [key] (define e.2.value e.2.tokens e.1) ms) ms
        = some ms' ∧ Changed key.name (n.withInner inner') ms ms' := by
  obtain ⟨ms', hms', hc⟩ := foldlM_behindHeader key
    (fun e : List Key × Literal => define e.2.value e.2.tokens e.1) es
    (by rw [hn]; simp) (by rw [hn]; exact hi) hd
  rw [hn] at hc
  exact ⟨ms', hms', hc⟩

theorem enter_setUp (heading : Heading)
    (h : node? key.name ms = none ∧ inner = [] ∨ node? key.name ms = some (.table .implied inner))
    (hd : defineAll es inner = some inner') :
    ∃ ms', enter false heading [key] es ms = some ms' ∧
      Changed key.name (.table (.header heading) inner') ms ms' := by
  obtain ⟨ms₁, hms₁, hc₁⟩ := setUp_of_free heading h
  obtain ⟨ms₂, hms₂, hc₂⟩ := foldlM_within_singleton hc₁.node?_self rfl hd
  exact ⟨ms₂, Option.bind_eq_some_iff.2 ⟨ms₁, hms₁, hms₂⟩, hc₁.trans hc₂⟩

theorem enter_appendNew (heading : Heading) {elements : List (Heading × Members)}
    (h : node? key.name ms = arrayOf elements) (hd : defineAll es [] = some inner') :
    ∃ ms', enter true heading [key] es ms = some ms' ∧
      Changed key.name (.tables (heading, inner') elements) ms ms' := by
  obtain ⟨ms₁, hms₁, hc₁⟩ := appendNew_of_array heading h
  obtain ⟨ms₂, hms₂, hc₂⟩ := foldlM_within_singleton hc₁.node?_self rfl hd
  exact ⟨ms₂, Option.bind_eq_some_iff.2 ⟨ms₁, hms₁, hms₂⟩, hc₁.trans hc₂⟩

end Enter

/-- A section as it is read again from what was written behind some keys: a path with the names
that are left, and the assignments. -/
structure Replays (skipped : List Key) (sec : Section) (path : List Key)
    (es : List (List Key × Literal)) : Prop where
  names : path.map Key.name = (sec.path.drop skipped.length).map Key.name
  leaves : List.Forall₂ Echoes (leavesOf [] sec.members) es

theorem Replays.of_prefix {skipped q path : List Key} {sec : Section}
    {es : List (List Key × Literal)} (h : Replays skipped sec path es)
    (hq : sec.path = skipped ++ q) : path.map Key.name = q.map Key.name := by
  rw [h.names, hq, List.drop_left]

/-- If a section makes the member grow to which it belongs, it makes the members grow. -/
theorem regrown_of_member {final ms ms' : Members} {m : Key × Node} (hn : (names final).Nodup)
    (hp : (placesOf final).Nodup) (hm : m ∈ final) (hk : k ∈ m.2.places) {ready : Bool}
    (hg : Regrown k ready ms final) (hf : Frame [m.1.name] ms ms')
    (hgm : m.2.GrownTo (k + 1) ready (node? m.1.name ms')) : Regrown (k + 1) ready ms' final := by
  have hname : m.1.name ∈ names final := List.mem_map_of_mem hm
  refine ⟨hf.covers hg.covers (by simpa using hname), fun m' hm' => ?_⟩
  by_cases he : m' = m
  · rw [he]
    exact hgm
  · have hname : m'.1.name ∉ [m.1.name] := by
      rw [List.mem_singleton]
      intro e
      have h' := member?_of_mem hn hm'
      rw [e, member?_of_mem hn hm, Option.some.injEq] at h'
      exact he h'.symm
    rw [hf.same _ hname]
    exact (Node.grownTo_succ (not_mem_places_of_ne hp hm hm' he hk)).1 (hg.members m' hm')

/-- Whether replaying a section takes members a step on in their growth, wherever they stand. -/
def Advances (heading : Heading) (sec : Section) (es : List (List Key × Literal))
    (final : Members) : Prop :=
  ∀ {skipped path : List Key} {ready : Bool} {ms : Members}, sec ∈ sectionsOf skipped final →
    Replays skipped sec path es → Regrown sec.place ready ms final →
    ∃ next rest ms', path = next :: rest ∧ enter sec.repeated heading path es ms = some ms' ∧
      Regrown (sec.place + 1) ready ms' final

/-- Whether replaying a section takes a member a step on in its growth. -/
def AdvancesMember (heading : Heading) (sec : Section) (es : List (List Key × Literal))
    (m : Key × Node) : Prop :=
  ∀ {skipped path : List Key} {ready : Bool} {ms : Members} {key : Key}, key.name = m.1.name →
    sec ∈ m.2.sections skipped → Replays skipped sec path es →
    m.2.GrownTo sec.place ready (node? m.1.name ms) →
    ∃ ms', enter sec.repeated heading (key :: path) es ms = some ms' ∧ Frame [m.1.name] ms ms' ∧
      m.2.GrownTo (sec.place + 1) ready (node? m.1.name ms')

variable {heading : Heading} {sec : Section} {es : List (List Key × Literal)}

theorem place_mem_places {n : Node} {path : List Key} (h : sec ∈ n.sections path) :
    sec.place ∈ n.places := by
  rw [← n.map_place_sections path]
  exact List.mem_map_of_mem h

theorem place_mem_placesOf {ms : Members} {path : List Key} (h : sec ∈ sectionsOf path ms) :
    sec.place ∈ placesOf ms := by
  rw [← map_place_sectionsOf path ms]
  exact List.mem_map_of_mem h

theorem place_mem_olderPlaces {final : List (Heading × Members)} {path : List Key}
    (h : sec ∈ final.flatMap (elementSections path)) : sec.place ∈ olderPlaces final := by
  cases final with
  | nil => cases h
  | cons newest older =>
    rw [← sections_tables] at h
    exact place_mem_places h

/-- Members advance if the one does to which the section belongs. -/
theorem MembersSound.advances {final : Members} (h : MembersSound M s final)
    (hp : (placesOf final).Nodup) (hm : ∀ m ∈ final, AdvancesMember heading sec es m) :
    Advances heading sec es final := by
  intro skipped path ready ms hsec hr hg
  obtain ⟨m, hmem, hsec⟩ := mem_sectionsOf.1 hsec
  obtain ⟨q, hq, -⟩ := (h.sound m hmem).section (h.legible m hmem) hsec
  have hnames := hr.of_prefix (q := m.1 :: q) (by rw [hq]; simp)
  obtain ⟨key, rest, rfl, hkey, hrest⟩ := List.map_eq_cons_iff.1 hnames
  have hr' : Replays (skipped ++ [m.1]) sec rest es :=
    ⟨by rw [hrest, hq, List.drop_left], hr.leaves⟩
  obtain ⟨ms', he, hf, hgm⟩ := hm m hmem hkey hsec hr' (hg.members m hmem)
  exact ⟨key, rest, ms', rfl, he,
    regrown_of_member h.nodup hp hmem (place_mem_places hsec) hg hf hgm⟩

theorem inner?_of_dottedInner? {inner : Members} (h : dottedInner? now = some inner) :
    inner? now = some inner := by
  rcases now with - | _ | ⟨_ | _ | _, _⟩ | _ <;> cases h <;> rfl

theorem dottedInner?_refilled {inner : Members} (h : dottedInner? now = some inner)
    (inner' : Members) : dottedInner? (some (refilled inner' now)) = some inner' := by
  rcases now with - | _ | ⟨_ | _ | _, _⟩ | _ <;> cases h <;> rfl

/-- An array of tables advances if the one does to which the section belongs. -/
theorem array_advances {final : List (Heading × Members)} {depth : Nat}
    (hs : ∀ e ∈ final, MembersSound M ⟨depth, 0, true⟩ e.2) (hd : Descending final)
    (hm : ∀ e ∈ final, Advances heading sec es e.2)
    {skipped path : List Key} (hsec : sec ∈ final.flatMap (elementSections skipped))
    (hr : Replays skipped sec path es) {key : Key} {ms : Members}
    {elements : List (Heading × Members)} (hnow : node? key.name ms = arrayOf elements)
    (hg : olderRegrown sec.place elements final) :
    ∃ ms' n elements', enter sec.repeated heading (key :: path) es ms = some ms' ∧
      Changed key.name n ms ms' ∧ some n = arrayOf elements' ∧
      olderRegrown (sec.place + 1) elements' final := by
  induction final with
  | nil => cases hsec
  | cons e final ih =>
    rw [List.forall_mem_cons] at hs hm
    obtain ⟨hinner, holder, hd⟩ := hd
    rw [List.flatMap_cons, List.mem_append] at hsec
    rcases hsec with hsec | hsec
    · rcases List.mem_cons.1 hsec with rfl | hsec
      · -- the header of the table itself: a new one is added
        have hpath : path = [] := by simpa using hr.of_prefix (q := []) (by simp)
        subst hpath
        rw [olderRegrown_of_le (Nat.le_refl _)] at hg
        have hfree : e.1.place ∉ olderPlaces final := fun h => Nat.lt_irrefl _ (holder _ h)
        have hnil : Regrown e.1.place false [] e.2 :=
          regrown_nil fun p hp => Nat.le_of_lt (hinner p hp)
        obtain ⟨inner, hdef, hgrown⟩ := hs.1.fill hr.leaves hnil
        obtain ⟨ms', he, hc⟩ := enter_appendNew heading hnow hdef
        refine ⟨ms', _, (heading, inner) :: elements, he, hc, rfl, ?_⟩
        have hself : e.1.place ∉ placesOf e.2 := fun h => Nat.lt_irrefl _ (hinner _ h)
        exact (olderRegrown_of_lt (Nat.lt_succ_self _)).2 ⟨_, _, rfl,
          (regrown_succ hself).1 hgrown, (olderRegrown_succ hfree).1 hg⟩
      · -- a header within the table, which is the newest one so far
        have hlt : e.1.place < sec.place := hinner _ (place_mem_placesOf hsec)
        obtain ⟨e', rest, rfl, hgrown, hg⟩ := (olderRegrown_of_lt hlt).1 hg
        obtain ⟨next, tail, inner, rfl, he, hgrown⟩ := hm.1 hsec hr hgrown
        have hi : inner? (node? key.name ms) = some e'.2 := by
          rw [hnow]
          rfl
        obtain ⟨ms', he, hc⟩ := enter_behind hi he
        refine ⟨ms', _, (e'.1, inner) :: rest, he, hc, by rw [hnow]; rfl, ?_⟩
        have hfree : sec.place ∉ olderPlaces final := fun h =>
          Nat.lt_asymm hlt (holder _ h)
        exact (olderRegrown_of_lt (Nat.lt_succ_of_lt hlt)).2 ⟨_, _, rfl, hgrown,
          (olderRegrown_succ hfree).1 hg⟩
    · -- a header of an older table, before this one is there
      have hlt : sec.place < e.1.place := holder _ (place_mem_olderPlaces hsec)
      rw [olderRegrown_of_le (Nat.le_of_lt hlt)] at hg
      obtain ⟨ms', n, elements', he, hc, hn, hg'⟩ := ih hs.2 hd hm.2 hsec hg
      exact ⟨ms', n, elements', he, hc, hn, (olderRegrown_of_le hlt).2 hg'⟩

theorem mem_olderPlaces {final : List (Heading × Members)} {e : Heading × Members}
    (he : e ∈ final) {p : Nat} (hp : p ∈ placesOf e.2) : p ∈ olderPlaces final := by
  induction final with
  | nil => cases he
  | cons e' final ih =>
    rw [olderPlaces, List.mem_append, List.mem_cons]
    rcases List.mem_cons.1 he with rfl | he
    · exact Or.inl (Or.inr hp)
    · exact Or.inr (ih he)

theorem nodup_places_of_mem {ms : Members} (hp : (placesOf ms).Nodup) {m : Key × Node}
    (hm : m ∈ ms) : m.2.places.Nodup := by
  rw [placesOf_eq, List.nodup_flatMap] at hp
  exact hp.1 m hm

theorem nodup_placesOf_of_mem {final : List (Heading × Members)} (hp : (olderPlaces final).Nodup)
    {e : Heading × Members} (he : e ∈ final) : (placesOf e.2).Nodup := by
  induction final with
  | nil => cases he
  | cons e' final ih =>
    rw [olderPlaces, List.nodup_append, List.nodup_cons] at hp
    rcases List.mem_cons.1 he with rfl | he
    · exact hp.1.2
    · exact ih hp.2.1 he

/-- Below a table a section is replayed behind its key. -/
theorem Advances.behind {members : Members} (h : Advances heading sec es members)
    {skipped path : List Key} {key : Key} {ms inner : Members}
    (hsec : sec ∈ sectionsOf skipped members) (hr : Replays skipped sec path es)
    (hi : inner? (node? key.name ms) = some inner) (hg : Regrown sec.place ready inner members) :
    ∃ inner' ms', enter sec.repeated heading (key :: path) es ms = some ms' ∧
      Changed key.name (refilled inner' (node? key.name ms)) ms ms' ∧
      Regrown (sec.place + 1) ready inner' members := by
  obtain ⟨next, rest, inner', rfl, he, hgrown⟩ := h hsec hr hg
  obtain ⟨ms', he', hc⟩ := enter_behind hi he
  exact ⟨inner', ms', he', hc, hgrown⟩

/-- A table advances if the section belongs to its members. -/
theorem Advances.table {members : Members} (h : Advances heading sec es members) {origin : Origin}
    (hne : ∀ own, origin = .header own → own.place ≠ sec.place) {skipped path : List Key}
    {key : Key} {ms : Members} (hsec : sec ∈ sectionsOf skipped members)
    (hr : Replays skipped sec path es)
    (hg : (Node.table origin members).GrownTo sec.place ready (node? key.name ms)) :
    ∃ ms', enter sec.repeated heading (key :: path) es ms = some ms' ∧ Frame [key.name] ms ms' ∧
      (Node.table origin members).GrownTo (sec.place + 1) ready (node? key.name ms') := by
  rcases origin with _ | _ | own
  · obtain ⟨inner, hi, hgrown⟩ := grownTo_implied.1 hg
    obtain ⟨inner', ms', he, hc, hgrown⟩ := h.behind hsec hr (inner?_of_dottedInner? hi) hgrown
    refine ⟨ms', he, hc.frame, grownTo_implied.2 ⟨inner', ?_, hgrown⟩⟩
    rw [hc.node?_self, dottedInner?_refilled hi]
  · obtain ⟨inner, hi, hgrown⟩ := grownTo_dotted.1 hg
    obtain ⟨inner', ms', he, hc, hgrown⟩ := h.behind hsec hr (inner?_of_dottedInner? hi) hgrown
    refine ⟨ms', he, hc.frame, grownTo_dotted.2 ⟨inner', ?_, hgrown⟩⟩
    rw [hc.node?_self, dottedInner?_refilled hi]
  · have hown := hne own rfl
    rcases Nat.lt_or_ge own.place sec.place with hlt | hge
    · -- the table was set up before
      obtain ⟨origin, inner, hnow, hgrown⟩ := (grownTo_header_of_lt hlt).1 hg
      obtain ⟨inner', ms', he, hc, hgrown⟩ := h.behind hsec hr (by rw [hnow]; rfl) hgrown
      refine ⟨ms', he, hc.frame, (grownTo_header_of_lt (Nat.lt_succ_of_lt hlt)).2
        ⟨origin, inner', ?_, hgrown⟩⟩
      rw [hc.node?_self, hnow]
      rfl
    · -- it is set up later, and until then is implied
      obtain ⟨inner, hnow, hgrown⟩ := (grownTo_header_of_le hge).1 hg
      have hi : Toml.inner? (node? key.name ms) = some inner := by
        rcases hnow with ⟨hnow, rfl⟩ | hnow <;> rw [hnow] <;> rfl
      obtain ⟨inner', ms', he, hc, hgrown⟩ := h.behind hsec hr hi hgrown
      refine ⟨ms', he, hc.frame, (grownTo_header_of_le (by omega)).2 ⟨inner', Or.inr ?_, hgrown⟩⟩
      rw [hc.node?_self]
      rcases hnow with ⟨hnow, rfl⟩ | hnow <;> rw [hnow] <;> rfl

/-- A table with a header advances by the section that the header begins. -/
theorem setUp_advances (heading : Heading) {own : Heading} {members : Members}
    (hs : MembersSound M ⟨s.depth + 1, 0, true⟩ members) (hself : own.place ∉ placesOf members)
    {key : Key} {ms : Members} (hes : List.Forall₂ Echoes (leavesOf [] members) es)
    (hg : (Node.table (.header own) members).GrownTo own.place ready (node? key.name ms)) :
    ∃ ms', enter false heading [key] es ms = some ms' ∧ Frame [key.name] ms ms' ∧
      (Node.table (.header own) members).GrownTo (own.place + 1) ready (node? key.name ms') := by
  obtain ⟨inner, hnow, hgrown⟩ := (grownTo_header_of_le (Nat.le_refl _)).1 hg
  obtain ⟨inner', hdef, hgrown⟩ := hs.fill hes hgrown
  obtain ⟨ms', he, hc⟩ := enter_setUp heading hnow hdef
  exact ⟨ms', he, hc.frame, (grownTo_header_of_lt (Nat.lt_succ_self _)).2
    ⟨_, inner', hc.node?_self, (regrown_succ hself).1 hgrown⟩⟩

/-- A member advances by a section that belongs to it. -/
theorem Node.Sound.advances (heading : Heading) (sec : Section) (es : List (List Key × Literal))
    {n : Node} {key : Key} (h : n.Sound M s key) (hp : n.places.Nodup) :
    AdvancesMember heading sec es (key, n) := by
  induction n using Node.members_induction generalizing s key with
  | value v right =>
    intro _ _ _ _ _ _ hsec
    cases hsec
  | table origin members ih =>
    intro skipped path ready ms key' hkey hsec hr hg
    change key'.name = key.name at hkey
    change Node.GrownTo _ _ (node? key.name ms) _ at hg
    change ∃ ms', _ ∧ Frame [key.name] ms ms' ∧ Node.GrownTo _ _ (node? key.name ms') _
    rw [← hkey] at hg ⊢
    rw [Node.places, List.nodup_append] at hp
    have hsound := h.inner rfl
    have hadv : Advances heading sec es members := hsound.advances hp.2.1 fun m hm =>
      ih m hm (hsound.sound m hm) (nodup_places_of_mem hp.2.1 hm)
    rcases List.mem_append.1 hsec with hown | hin
    · -- the header of the table itself
      rcases origin with _ | _ | own
      · cases hown
      · cases hown
      · obtain rfl := List.mem_singleton.1 hown
        have hpath : path = [] := by simpa using hr.of_prefix (q := []) (by simp)
        subst hpath
        obtain ⟨-, -, -, hs⟩ := sound_header.1 h
        have hself : own.place ∉ placesOf members := fun hmem =>
          hp.2.2 _ (List.mem_singleton.2 rfl) _ hmem rfl
        exact setUp_advances heading hs hself hr.leaves hg
    · refine hadv.table ?_ hin hr hg
      rintro own rfl e
      exact hp.2.2 _ (List.mem_singleton.2 rfl) _ (place_mem_placesOf hin) e
  | tables newest older ih =>
    intro skipped path ready ms key' hkey hsec hr hg
    change key'.name = key.name at hkey
    change ∃ ms', _ ∧ Frame [key.name] ms ms' ∧ Node.GrownTo _ _ (node? key.name ms') _
    obtain ⟨-, -, he, hd⟩ := sound_tables.1 h
    have hp' : (olderPlaces (newest :: older)).Nodup := hp
    rw [sections_tables] at hsec
    obtain ⟨elements, hnow, hgrown⟩ := grownTo_tables.1 hg
    have hadv : ∀ e ∈ newest :: older, Advances heading sec es e.2 := fun e hmem =>
      (he e hmem).2.advances (nodup_placesOf_of_mem hp' hmem) fun m hm =>
        ih e hmem m hm ((he e hmem).2.sound m hm)
          (nodup_places_of_mem (nodup_placesOf_of_mem hp' hmem) hm)
    rw [← hkey] at hnow ⊢
    obtain ⟨ms', n, elements', henter, hc, hn, hgrown⟩ :=
      array_advances (fun e hmem => (he e hmem).2) hd hadv hsec hr hnow hgrown
    refine ⟨ms', henter, hc.frame, grownTo_tables.2 ⟨elements', ?_, hgrown⟩⟩
    rw [hc.node?_self, hn]

/-- A section of a sound tree takes what has grown of the tree a step on. -/
theorem MembersSound.replay {final : Members} (h : MembersSound M s final)
    (hp : (placesOf final).Nodup) (heading : Heading) {sec : Section} {path : List Key}
    {es : List (List Key × Literal)} (hsec : sec ∈ sectionsOf [] final)
    (hr : Replays [] sec path es) {ready : Bool} {ms : Members}
    (hg : Regrown sec.place ready ms final) :
    ∃ ms', enter sec.repeated heading path es ms = some ms' ∧
      Regrown (sec.place + 1) ready ms' final := by
  have hadv : Advances heading sec es final := h.advances hp fun m hm =>
    (h.sound m hm).advances heading sec es (nodup_places_of_mem hp hm)
  obtain ⟨_, _, ms', -, he, hg⟩ := hadv hsec hr hg
  exact ⟨ms', he, hg⟩

/-! ### What has grown in the end -/

theorem memberNames_valuesOf (ms : Members) : memberNames (valuesOf ms) = names ms := by
  induction ms with
  | nil => rfl
  | cons m ms ih =>
    rw [valuesOf, memberNames, List.map_cons, ← memberNames, ih]
    rfl

theorem lookup_valuesOf (name : String) (ms : Members) :
    (valuesOf ms).lookup name = (node? name ms).map Node.toValue := by
  induction ms with
  | nil => rfl
  | cons m ms ih =>
    rw [valuesOf, List.lookup_cons]
    by_cases h : name = m.1.name
    · subst h
      simp [node?, member?]
    · rw [beq_false_of_ne h, node?, member?, List.find?_cons, beq_false_of_ne (Ne.symm h)]
      exact ih

theorem mem_valuesOf {ms : Members} {v : String × Value} (h : v ∈ valuesOf ms) :
    ∃ m ∈ ms, v = (m.1.name, m.2.toValue) := by
  induction ms with
  | nil => cases h
  | cons m ms ih =>
    rcases List.mem_cons.1 h with rfl | h
    · exact ⟨m, List.mem_cons_self, rfl⟩
    · obtain ⟨m', hm', e⟩ := ih h
      exact ⟨m', List.mem_cons_of_mem _ hm', e⟩

/-- Members are alike if each of them has grown to what is like it. -/
theorem Regrown.alike {ms final : Members} (h : Regrown k ready ms final)
    (hm : ∀ m ∈ final, ∀ {now : Option Node}, m.2.GrownTo k ready now →
      ∃ n, now = some n ∧ m.2.toValue.Alike n.toValue) :
    TablesAlike (valuesOf final) (valuesOf ms) := by
  refine ⟨?_, ?_, fun v hv => ?_⟩
  · rw [memberNames_valuesOf]
    exact h.covers.nodup
  · rw [memberNames_valuesOf, memberNames_valuesOf]
    exact h.covers.subset
  · obtain ⟨m, hmem, rfl⟩ := mem_valuesOf hv
    obtain ⟨n, hn, halike⟩ := hm m hmem (h.members m hmem)
    exact ⟨n.toValue, by rw [lookup_valuesOf, hn, Option.map_some], halike⟩

/-- A table without a header is there for what is in it. -/
theorem alike_of_dottedInner? {origin : Origin} {members inner : Members} (hne : members ≠ [])
    (hi : dottedInner? now = some inner) (ht : TablesAlike (valuesOf members) (valuesOf inner)) :
    ∃ n', now = some n' ∧ (Node.table origin members).toValue.Alike n'.toValue := by
  rcases now with - | _ | ⟨_, _⟩ | _
  · cases hi
    obtain ⟨m, rest, rfl⟩ := List.exists_cons_of_ne_nil hne
    obtain ⟨w, hw, -⟩ := ht.members (m.1.name, m.2.toValue) List.mem_cons_self
    cases hw
  · cases hi
  · obtain rfl : _ = inner := Option.some.inj (inner?_of_dottedInner? hi)
    exact ⟨_, rfl, alike_table.2 ⟨_, rfl, ht⟩⟩
  · cases hi

/-- Once all headers of an array have been met, its tables are alike if what has grown of each of
them is. -/
theorem elementsOf_alike {final elements : List (Heading × Members)}
    (hm : ∀ e ∈ final, ∀ {inner : Members}, Regrown k true inner e.2 →
      TablesAlike (valuesOf e.2) (valuesOf inner))
    (hk : ∀ p ∈ olderPlaces final, p < k) (hg : olderRegrown k elements final) :
    List.Forall₂ Value.Alike (elementsOf final) (elementsOf elements) := by
  induction final generalizing elements with
  | nil =>
    obtain rfl : elements = [] := hg
    exact .nil
  | cons e final ih =>
    rw [List.forall_mem_cons] at hm
    simp only [olderPlaces, List.cons_append, List.mem_append, List.mem_cons] at hk
    obtain ⟨e', rest, rfl, hg, hrest⟩ := (olderRegrown_of_lt (hk _ (Or.inl rfl))).1 hg
    exact List.rel_append (ih hm.2 (fun p hp => hk p (Or.inr (Or.inr hp))) hrest)
      (.cons (alike_table.2 ⟨_, rfl, hm.1 hg⟩) .nil)

/-- Once all headers have been met, and the values of the table, every member has grown to what is
like it. -/
theorem Node.Sound.alike {n : Node} {key : Key} (h : n.Sound M s key)
    (hk : ∀ p ∈ n.places, p < k) (hready : s.hosts = true → ready = true)
    (hg : n.GrownTo k ready now) : ∃ n', now = some n' ∧ n.toValue.Alike n'.toValue := by
  induction n using Node.members_induction generalizing s key ready now with
  | value v right =>
    rw [Node.GrownTo, if_pos (hready h.1)] at hg
    obtain ⟨w, right', rfl, hv⟩ := hg
    exact ⟨_, rfl, hv⟩
  | table origin members ih =>
    have halike : ∀ {s : Site} {ready : Bool} {inner : Members}, MembersSound M s members →
        (s.hosts = true → ready = true) → Regrown k ready inner members →
        TablesAlike (valuesOf members) (valuesOf inner) := fun hs hready hg =>
      hg.alike fun m hm _ hgm => ih m hm (hs.sound m hm)
        (fun p hp => hk p (List.mem_append_right _ (mem_placesOf hm hp))) hready hgm
    rcases origin with _ | _ | own
    · obtain ⟨hne, hs⟩ := sound_implied.1 h
      obtain ⟨inner, hi, hg⟩ := grownTo_implied.1 hg
      exact alike_of_dottedInner? hne hi (halike hs (by simp) hg)
    · obtain ⟨hh, hne, hs⟩ := sound_dotted.1 h
      obtain ⟨inner, hi, hg⟩ := grownTo_dotted.1 hg
      exact alike_of_dottedInner? hne hi (halike hs (fun _ => hready hh) hg)
    · obtain ⟨-, -, -, hs⟩ := sound_header.1 h
      have hlt : own.place < k := hk _ (by simp [Node.places, Node.places.headed])
      obtain ⟨origin, inner, rfl, hgrown⟩ := (grownTo_header_of_lt hlt).1 hg
      exact ⟨_, rfl, alike_table.2 ⟨_, rfl, halike hs (fun _ => rfl) hgrown⟩⟩
  | tables newest older ih =>
    obtain ⟨-, -, he, -⟩ := sound_tables.1 h
    obtain ⟨elements, rfl, hgrown⟩ := grownTo_tables.1 hg
    have hall : List.Forall₂ Value.Alike (elementsOf (newest :: older)) (elementsOf elements) :=
      elementsOf_alike (fun e hmem _ hg => hg.alike fun m hm _ hgm =>
        ih e hmem m hm ((he e hmem).2.sound m hm)
          (fun p hp => hk p (mem_olderPlaces hmem (mem_placesOf hm hp))) (fun _ => rfl) hgm)
        hk hgrown
    rcases elements with - | ⟨e', rest⟩
    · have := hall.length_eq
      simp [elementsOf] at this
    · exact ⟨_, rfl, alike_array.2 ⟨_, rfl, hall⟩⟩

/-- Once all headers have been met, what has grown is like what was written. -/
theorem MembersSound.alike_of_regrown {final : Members} (h : MembersSound M s final)
    (hk : ∀ p ∈ placesOf final, p < k) {ms : Members} (hg : Regrown k true ms final) :
    TablesAlike (valuesOf final) (valuesOf ms) :=
  hg.alike fun m hm _ hgm => (h.sound m hm).alike (fun p hp => hk p (mem_placesOf hm hp))
    (fun _ => rfl) hgm

end LintHost.Toml
