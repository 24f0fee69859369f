/-
LintHost/Proofs/Toml/Members.lean

Members by name.  A change of one member looks it up and puts the new one in its place
or at the end (`adjust_eq`), and leaves all others as they were.  What definitions and
headers do to a tree is said once in these terms (`define_last`, `define_next`,
`behindHeader_of_inner`, `setUp_of_free`, `appendNew_of_array`).
Main facts: changes behind a key can be made in one (`foldlM_behindHeader`,
`foldlM_define_next`).
-/
import LintHost.Toml.Reader
import Mathlib.Data.List.Nodup

namespace LintHost.Toml

/-! ### Trees -/

/-- Induction over trees: what holds of a node if it holds of all members of its tables holds of
every node. -/
@[elab_as_elim]
theorem Node.members_induction {P : Node → Prop} (value : ∀ v right, P (.value v right))
    (table : ∀ origin members, (∀ m ∈ members, P m.2) → P (.table origin members))
    (tables : ∀ newest older, (∀ e ∈ newest :: older, ∀ m ∈ e.2, P m.2) →
      P (.tables newest older)) : ∀ n : Node, P n
  | .value v right => value v right
  | .table origin members =>
    table origin members fun m hm =>
      have := List.sizeOf_lt_of_mem hm
      have : sizeOf m.2 < sizeOf m := by cases m; simp +arith
      members_induction value table tables m.2
  | .tables newest older =>
    tables newest older fun e he m hm =>
      have := List.sizeOf_lt_of_mem hm
      have : sizeOf m.2 < sizeOf m := by cases m; simp +arith
      have : sizeOf e.2 < sizeOf e := by cases e; simp +arith
      have : sizeOf e ≤ sizeOf newest + sizeOf older := by
        rcases List.mem_cons.1 he with rfl | he
        · omega
        · have := List.sizeOf_lt_of_mem he
          omega
      members_induction value table tables m.2
termination_by n => sizeOf n
decreasing_by
  · simp only [Node.table.sizeOf_spec]; omega
  · simp only [Node.tables.sizeOf_spec]; omega

/-! ### Looking up and putting -/

/-- The names of members. -/
def names (ms : Members) : List String :=
  ms.map (·.1.name)

/-- The member with a name. -/
def member? (name : String) (ms : Members) : Option (Key × Node) :=
  ms.find? (·.1.name == name)

/-- What a name stands for. -/
def node? (name : String) (ms : Members) : Option Node :=
  (member? name ms).map Prod.snd

/-- The members with one put in the place of the one with the name, or at the end. -/
def put (name : String) (m : Key × Node) : Members → Members
  | [] => [m]
  | n :: rest => if n.1.name = name then m :: rest else n :: put name m rest

theorem adjust_eq (name : String) (f : Option (Key × Node) → Option (Key × Node)) (ms : Members) :
    adjust name f ms = (f (member? name ms)).map (put name · ms) := by
  induction ms with
  | nil => rfl
  | cons n rest ih =>
    rw [adjust, member?, List.find?_cons]
    by_cases h : n.1.name = name
    · rw [if_pos h, beq_iff_eq.2 h]
      simp only [put, if_pos h]
    · rw [if_neg h, ih, beq_false_of_ne h, Option.map_map]
      simp only [Function.comp_def, put, if_neg h, member?]

theorem member?_eq_some {name : String} {ms : Members} {m : Key × Node}
    (h : member? name ms = some m) : m.1.name = name ∧ m ∈ ms :=
  ⟨by simpa using List.find?_some h, List.mem_of_find?_eq_some h⟩

theorem member?_eq_none_iff {name : String} {ms : Members} :
    member? name ms = none ↔ name ∉ names ms := by
  simp [member?, names]

theorem node?_eq_none_iff {name : String} {ms : Members} :
    node? name ms = none ↔ name ∉ names ms := by
  rw [node?, Option.map_eq_none_iff, member?_eq_none_iff]

theorem member?_of_mem {ms : Members} (hn : (names ms).Nodup) {m : Key × Node} (hm : m ∈ ms) :
    member? m.1.name ms = some m := by
  induction ms with
  | nil => cases hm
  | cons n rest ih =>
    rw [names, List.map_cons, List.nodup_cons] at hn
    rw [member?, List.find?_cons]
    rcases List.mem_cons.1 hm with rfl | hm
    · rw [beq_iff_eq.2 rfl]
    · have hne : n.1.name ≠ m.1.name := fun e => hn.1 (e ▸ List.mem_map_of_mem hm)
      rw [beq_false_of_ne hne]
      exact ih hn.2 hm

theorem put_of_none {name : String} {ms : Members} (h : member? name ms = none)
    (m : Key × Node) : put name m ms = ms ++ [m] := by
  induction ms with
  | nil => rfl
  | cons n rest ih =>
    rw [member?_eq_none_iff, names, List.map_cons, List.mem_cons, not_or] at h
    rw [put, if_neg (Ne.symm h.1), ih (member?_eq_none_iff.2 h.2), List.cons_append]

/-- The place of a member. -/
theorem put_of_some {name : String} {ms : Members} {old : Key × Node}
    (h : member? name ms = some old) :
    ∃ before after, ms = before ++ old :: after ∧
      ∀ m, put name m ms = before ++ m :: after := by
  induction ms with
  | nil => cases h
  | cons n rest ih =>
    rw [member?, List.find?_cons] at h
    by_cases hn : n.1.name = name
    · rw [beq_iff_eq.2 hn] at h
      cases h
      exact ⟨[], rest, rfl, fun m => by rw [put, if_pos hn, List.nil_append]⟩
    · rw [beq_false_of_ne hn] at h
      obtain ⟨before, after, rfl, hput⟩ := ih h
      exact ⟨n :: before, after, rfl, fun m => by rw [put, if_neg hn, hput, List.cons_append]⟩

theorem mem_put {name : String} {ms : Members} (hn : (names ms).Nodup) {m x : Key × Node}
    (h : x ∈ put name m ms) : x = m ∨ x ∈ ms ∧ x.1.name ≠ name := by
  induction ms with
  | nil => exact Or.inl (List.mem_singleton.1 h)
  | cons n rest ih =>
    rw [names, List.map_cons, List.nodup_cons] at hn
    rw [put] at h
    split at h
    · next he =>
      refine (List.mem_cons.1 h).imp_right fun hx => ⟨List.mem_cons_of_mem _ hx, fun e => ?_⟩
      exact hn.1 (he.trans e.symm ▸ List.mem_map_of_mem hx)
    · next he =>
      rcases List.mem_cons.1 h with rfl | h
      · exact Or.inr ⟨List.mem_cons_self, he⟩
      · exact (ih hn.2 h).imp_right fun hx => ⟨List.mem_cons_of_mem _ hx.1, hx.2⟩

theorem put_ne_nil (name : String) (m : Key × Node) (ms : Members) : put name m ms ≠ [] := by
  cases ms with
  | nil => simp [put]
  | cons n rest => rw [put]; split <;> simp

/-! ### Changes of one member -/

/-- The members before and after a change that makes a name stand for a node. -/
def Changed (name : String) (n : Node) (ms ms' : Members) : Prop :=
  ∃ k : Key, k.name = name ∧ ms' = put name (k, n) ms

namespace Changed

variable {name : String} {n : Node} {ms ms' : Members}

theorem member? (h : Changed name n ms ms') :
    ∃ k : Key, k.name = name ∧ Toml.member? name ms' = some (k, n) := by
  obtain ⟨k, hk, rfl⟩ := h
  refine ⟨k, hk, ?_⟩
  induction ms with
  | nil => simp [put, Toml.member?, hk]
  | cons m rest ih =>
    rw [put]
    split
    · simp [Toml.member?, hk]
    · next hm => simpa [Toml.member?, hm] using ih

theorem node?_self (h : Changed name n ms ms') : node? name ms' = some n := by
  obtain ⟨k, -, hm⟩ := h.member?
  rw [node?, hm, Option.map_some]

theorem node?_of_ne (h : Changed name n ms ms') {other : String} (ho : other ≠ name) :
    node? other ms' = node? other ms := by
  obtain ⟨k, hk, rfl⟩ := h
  induction ms with
  | nil => simp [put, node?, Toml.member?, hk, Ne.symm ho]
  | cons m rest ih =>
    rw [put]
    split
    · next hm => simp [node?, Toml.member?, hk, hm, Ne.symm ho]
    · by_cases he : m.1.name = other
      · simp [node?, Toml.member?, he]
      · simpa [node?, Toml.member?, he] using ih

theorem mem_names_iff (h : Changed name n ms ms') {x : String} :
    x ∈ names ms' ↔ x = name ∨ x ∈ names ms := by
  by_cases hx : x = name
  · rw [← not_iff_not, ← node?_eq_none_iff, hx, h.node?_self]
    simp
  · rw [← not_iff_not, ← node?_eq_none_iff, h.node?_of_ne hx, node?_eq_none_iff]
    simp [hx]

theorem nodup (h : Changed name n ms ms') (hn : (names ms).Nodup) : (names ms').Nodup := by
  obtain ⟨k, hk, rfl⟩ := h
  rcases hm : Toml.member? name ms with - | old
  · rw [put_of_none hm, names, List.map_append, List.map_cons, List.map_nil]
    have hnot := member?_eq_none_iff.1 hm
    rw [← hk] at hnot
    exact List.Nodup.append hn (List.nodup_singleton _) (List.disjoint_singleton.2 hnot)
  · obtain ⟨before, after, rfl, hput⟩ := put_of_some hm
    have hold := (member?_eq_some hm).1
    simpa only [hput, names, List.map_append, List.map_cons, hk, hold] using hn

theorem trans {n' : Node} {ms'' : Members} (h : Changed name n ms ms')
    (h' : Changed name n' ms' ms'') : Changed name n' ms ms'' := by
  obtain ⟨k, hk, rfl⟩ := h
  obtain ⟨k', hk', rfl⟩ := h'
  refine ⟨k', hk', ?_⟩
  induction ms with
  | nil => simp [put, hk]
  | cons m rest ih =>
    by_cases hm : m.1.name = name
    · simp [put, hm, hk]
    · simpa [put, hm] using ih

end Changed

theorem adjust_changed {name : String} {f : Option (Key × Node) → Option (Key × Node)}
    {ms : Members} {k : Key} {n : Node} (hf : f (member? name ms) = some (k, n))
    (hk : k.name = name) : ∃ ms', adjust name f ms = some ms' ∧ Changed name n ms ms' :=
  ⟨_, by rw [adjust_eq, hf, Option.map_some], k, hk, rfl⟩

/-! ### Tables inside -/

/-- The members of a node that lies on the way of a header: those of a table, or of the newest
table of an array. -/
def Node.inner? : Node → Option Members
  | .value _ _ => none
  | .table _ ms => some ms
  | .tables (_, ms) _ => some ms

/-- The node with other members on the way of a header. -/
def Node.withInner (ms : Members) : Node → Node
  | .value v right => .value v right
  | .table origin _ => .table origin ms
  | .tables (heading, _) older => .tables (heading, ms) older

/-- The members behind a name on the way of a header; nothing is in a table that is missing. -/
def inner? : Option Node → Option Members
  | none => some []
  | some n => n.inner?

/-- What a name stands for once members have been changed behind it. -/
def refilled (ms : Members) : Option Node → Node
  | none => .table .implied ms
  | some n => n.withInner ms

@[simp] theorem inner?_refilled {n? : Option Node} {ms : Members} (h : inner? n? = some ms)
    (ms' : Members) : inner? (some (refilled ms' n?)) = some ms' := by
  rcases n? with - | _ | _ | _
  · rfl
  · cases h
  · rfl
  · rfl

@[simp] theorem refilled_refilled (ms ms' : Members) (n? : Option Node) :
    refilled ms' (some (refilled ms n?)) = refilled ms' n? := by
  rcases n? with - | _ | _ | _ <;> rfl

theorem node?_eq_some {name : String} {ms : Members} {n : Node} (h : node? name ms = some n) :
    ∃ k, member? name ms = some (k, n) ∧ k.name = name := by
  obtain ⟨⟨k, _⟩, hm, rfl⟩ := Option.map_eq_some_iff.1 h
  exact ⟨k, hm, (member?_eq_some hm).1⟩

theorem behindHeader_of_inner {key : Key} {change : Change} {ms inner inner' : Members}
    (hi : inner? (node? key.name ms) = some inner) (hc : change inner = some inner') :
    ∃ ms', behindHeader key change ms = some ms' ∧
      Changed key.name (refilled inner' (node? key.name ms)) ms ms' := by
  rcases hn : node? key.name ms with - | n
  · rw [hn] at hi
    cases hi
    have hm : member? key.name ms = none := Option.map_eq_none_iff.1 hn
    exact adjust_changed (k := key) (by rw [hm]; simp only [hc]; rfl) rfl
  · rw [hn] at hi
    obtain ⟨k, hm, hk⟩ := node?_eq_some hn
    refine adjust_changed (k := k) ?_ hk
    rw [hm]
    rcases n with _ | _ | ⟨⟨_, _⟩, _⟩
    · cases hi
    · cases hi
      simp only [hc]
      rfl
    · cases hi
      simp only [hc]
      rfl

/-- Changes behind a key can be made in one. -/
theorem foldlM_behindHeader {α : Type} (key : Key) (change : α → Change) (l : List α)
    {ms inner inner' : Members} (hn : node? key.name ms ≠ none)
    (hi : inner? (node? key.name ms) = some inner)
    (hc : l.foldlM (fun ms a => change a ms) inner = some inner') :
    ∃ ms', l.foldlM (fun ms a => behindHeader key (change a) ms) ms = some ms' ∧
      Changed key.name (refilled inner' (node? key.name ms)) ms ms' := by
  induction l generalizing ms inner with
  | nil =>
    cases hc
    refine ⟨ms, rfl, ?_⟩
    rcases hn' : node? key.name ms with - | n
    · exact absurd hn' hn
    · obtain ⟨k, hm, hk⟩ := node?_eq_some hn'
      obtain ⟨before, after, hms, hput⟩ := put_of_some hm
      rw [hn'] at hi
      refine ⟨k, hk, ?_⟩
      rw [hput, hms]
      rcases n with _ | _ | ⟨⟨_, _⟩, _⟩ <;> cases hi <;> rfl
  | cons a l ih =>
    obtain ⟨middle, ha, hl⟩ := Option.bind_eq_some_iff.1 hc
    obtain ⟨ms₁, hms₁, hch⟩ := behindHeader_of_inner hi ha
    have hself := hch.node?_self
    have hthere : node? key.name ms₁ ≠ none := by simp [hself]
    obtain ⟨ms', hms', hch'⟩ := ih hthere (by rw [hself]; exact inner?_refilled hi middle) hl
    refine ⟨ms', ?_, ?_⟩
    · rw [List.foldlM_cons]
      exact Option.bind_eq_some_iff.2 ⟨ms₁, hms₁, hms'⟩
    · rw [hself, refilled_refilled] at hch'
      exact hch.trans hch'

/-! ### Definitions -/

/-- Whether a header names the table. -/
def Origin.isHeaded : Origin → Bool
  | header _ => true
  | implied | dotted => false

theorem define_last (v : Value) (right : List Token) {key : Key} {ms : Members}
    (h : node? key.name ms = none) :
    ∃ ms', define v right [key] ms = some ms' ∧ Changed key.name (.value v right) ms ms' := by
  have hm : member? key.name ms = none := Option.map_eq_none_iff.1 h
  exact adjust_changed (k := key) (by rw [hm]) rfl

/-- The tables that a dotted path may create or go through. -/
def dottedInner? : Option Node → Option Members
  | none => some []
  | some (.table origin ms) => if origin.isHeaded then none else some ms
  | some _ => none

theorem define_next {v : Value} {right : List Token} {key next : Key} {path : List Key}
    {ms inner inner' : Members} (hi : dottedInner? (node? key.name ms) = some inner)
    (hd : define v right (next :: path) inner = some inner') :
    ∃ ms', define v right (key :: next :: path) ms = some ms' ∧
      Changed key.name (.table .dotted inner') ms ms' := by
  rcases hn : node? key.name ms with - | n
  · rw [hn] at hi
    cases hi
    have hm : member? key.name ms = none := Option.map_eq_none_iff.1 hn
    rw [define]
    exact adjust_changed (k := key) (by rw [hm]; simp only [hd]; rfl) rfl
  · rw [hn] at hi
    obtain ⟨k, hm, hk⟩ := node?_eq_some hn
    rw [define]
    refine adjust_changed (k := k) ?_ hk
    rw [hm]
    rcases n with _ | ⟨origin, _⟩ | _
    · cases hi
    · rcases origin with _ | _ | _
      · cases hi
        simp only [hd]
        rfl
      · cases hi
        simp only [hd]
        rfl
      · cases hi
    · cases hi

/-- Definitions behind a name, of which there is one at least, can be made in one.  The key with
the name may be another one each time. -/
theorem foldlM_define_next {name : String} {es : List (List Key × Literal)} (hne : es ≠ [])
    (hes : ∀ e ∈ es, ∃ key next path, e.1 = key :: next :: path ∧ key.name = name)
    {ms inner inner' : Members} (hi : dottedInner? (node? name ms) = some inner)
    (hd : (es.map fun e => (e.1.tail, e.2)).foldlM
      (fun ms e => define e.2.value e.2.tokens e.1 ms) inner = some inner') :
    ∃ ms', es.foldlM (fun ms e => define e.2.value e.2.tokens e.1 ms) ms = some ms' ∧
      Changed name (.table .dotted inner') ms ms' := by
  induction es generalizing ms inner with
  | nil => exact absurd rfl hne
  | cons e es ih =>
    obtain ⟨_, right⟩ := e
    obtain ⟨key, next, path, rfl, rfl⟩ := hes _ List.mem_cons_self
    rw [List.map_cons, List.foldlM_cons] at hd
    obtain ⟨middle, hdef, hd⟩ := Option.bind_eq_some_iff.1 hd
    obtain ⟨ms₁, hms₁, hch⟩ := define_next hi hdef
    rw [List.foldlM_cons]
    cases es with
    | nil =>
      cases hd
      exact ⟨ms₁, Option.bind_eq_some_iff.2 ⟨ms₁, hms₁, rfl⟩, hch⟩
    | cons e' es =>
      have hinner : dottedInner? (node? key.name ms₁) = some middle := by
        rw [hch.node?_self]
        rfl
      obtain ⟨ms', hms', hch'⟩ := ih (by simp) (fun e he => hes e (List.mem_cons_of_mem _ he))
        hinner hd
      exact ⟨ms', Option.bind_eq_some_iff.2 ⟨ms₁, hms₁, hms'⟩, hch.trans hch'⟩

/-! ### Setting up -/

theorem setUp_of_free (heading : Heading) {key : Key} {ms : Members} {inner : Members}
    (h : node? key.name ms = none ∧ inner = [] ∨ node? key.name ms = some (.table .implied inner)) :
    ∃ ms', setUp heading key ms = some ms' ∧
      Changed key.name (.table (.header heading) inner) ms ms' := by
  refine adjust_changed (k := key) ?_ rfl
  rcases h with ⟨hn, rfl⟩ | hn
  · rw [Option.map_eq_none_iff.1 hn]
  · obtain ⟨k, hm, -⟩ := node?_eq_some hn
    rw [hm]

/-- An array of tables, newest first; nothing if there is none. -/
def arrayOf : List (Heading × Members) → Option Node
  | [] => none
  | newest :: older => some (.tables newest older)

theorem appendNew_of_array (heading : Heading) {key : Key} {ms : Members}
    {elements : List (Heading × Members)} (h : node? key.name ms = arrayOf elements) :
    ∃ ms', appendNew heading key ms = some ms' ∧
      Changed key.name (.tables (heading, []) elements) ms ms' := by
  cases elements with
  | nil => exact adjust_changed (k := key) (by rw [Option.map_eq_none_iff.1 h]) rfl
  | cons newest older =>
    obtain ⟨k, hm, hk⟩ := node?_eq_some h
    exact adjust_changed (k := k) (by rw [hm]) hk

end LintHost.Toml
