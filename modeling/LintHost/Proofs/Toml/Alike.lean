/-
LintHost/Proofs/Toml/Alike.lean

Values that are alike: the same but for the order in which the members of tables come,
which says nothing in TOML.  Tables that are alike answer every look-up alike
(`TablesAlike.lookup`), and bounds that admit a value admit what is like it
(`Value.Alike.isWithin`).
-/
import LintHost.Proofs.Text.Pairing
import LintHost.Toml.Value
import Mathlib.Data.List.Nodup

namespace LintHost.Toml

/-! ### Values -/

/-- Induction over values: what holds of a value if it holds of all its items and members holds of
every value. -/
@[elab_as_elim]
theorem Value.items_induction {P : Value → Prop}
    (scalar : ∀ v, (∀ items, v ≠ .array items) → (∀ members, v ≠ .table members) → P v)
    (array : ∀ items, (∀ v ∈ items, P v) → P (.array items))
    (table : ∀ members, (∀ m ∈ members, P m.2) → P (.table members)) : ∀ v : Value, P v
  | .string _ | .integer _ | .float _ | .boolean _ | .date _ => scalar _ (by simp) (by simp)
  | .array items =>
    array items fun v hv =>
      have := List.sizeOf_lt_of_mem hv
      items_induction scalar array table v
  | .table members =>
    table members fun m hm =>
      have := List.sizeOf_lt_of_mem hm
      have : sizeOf m.2 < sizeOf m := by cases m; simp +arith
      items_induction scalar array table m.2
termination_by v => sizeOf v
decreasing_by
  · simp only [Value.array.sizeOf_spec]; omega
  · simp only [Value.table.sizeOf_spec]; omega

/-- The names of members. -/
abbrev memberNames (ms : List (String × Value)) : List String :=
  ms.map Prod.fst

mutual

/-- Whether a value is another one but for the order of members.  Of the second one it is asked
that its tables name nothing twice. -/
def Value.Alike : Value → Value → Prop
  | .array items, w => ∃ others, w = .array others ∧ itemsAlike items others
  | .table members, w => ∃ others, w = .table others ∧ (memberNames others).Nodup ∧
      (∀ n ∈ memberNames others, n ∈ memberNames members) ∧ membersAlike members others
  | v, w => w = v

/-- Whether values are like others in turn. -/
def itemsAlike : List Value → List Value → Prop
  | [], others => others = []
  | v :: items, others => ∃ w rest, others = w :: rest ∧ v.Alike w ∧ itemsAlike items rest

/-- Whether members are like what others say under their names. -/
def membersAlike : List (String × Value) → List (String × Value) → Prop
  | [], _ => True
  | (name, v) :: members, others =>
    (∃ w, others.lookup name = some w ∧ v.Alike w) ∧ membersAlike members others

end

/-- Whether tables are the same but for the order of their members, at any depth. -/
structure TablesAlike (members others : List (String × Value)) : Prop where
  nodup : (memberNames others).Nodup
  names : ∀ n ∈ memberNames others, n ∈ memberNames members
  members : ∀ m ∈ members, ∃ w, others.lookup m.1 = some w ∧ m.2.Alike w

theorem itemsAlike_iff {items others : List Value} :
    itemsAlike items others ↔ List.Forall₂ Value.Alike items others := by
  induction items generalizing others with
  | nil => simp [itemsAlike]
  | cons v items ih =>
    simp only [itemsAlike, ih, List.forall₂_cons_left_iff]
    exact ⟨fun ⟨w, rest, e, hv, h⟩ => ⟨w, rest, hv, h, e⟩, fun ⟨w, rest, hv, h, e⟩ =>
      ⟨w, rest, e, hv, h⟩⟩

theorem membersAlike_iff {members others : List (String × Value)} :
    membersAlike members others ↔
      ∀ m ∈ members, ∃ w, others.lookup m.1 = some w ∧ m.2.Alike w := by
  induction members with
  | nil => simp [membersAlike]
  | cons m members ih => simp only [membersAlike, ih, List.forall_mem_cons]

@[simp] theorem alike_array {items : List Value} {w : Value} :
    (Value.array items).Alike w ↔ ∃ others, w = .array others ∧
      List.Forall₂ Value.Alike items others := by
  simp only [Value.Alike, itemsAlike_iff]

@[simp] theorem alike_table {members : List (String × Value)} {w : Value} :
    (Value.table members).Alike w ↔ ∃ others, w = .table others ∧ TablesAlike members others := by
  simp only [Value.Alike, membersAlike_iff]
  exact exists_congr fun others => and_congr_right fun _ =>
    ⟨fun ⟨h1, h2, h3⟩ => ⟨h1, h2, h3⟩, fun h => ⟨h.nodup, h.names, h.members⟩⟩

theorem alike_scalar {v w : Value} (ha : ∀ items, v ≠ .array items)
    (ht : ∀ members, v ≠ .table members) : v.Alike w ↔ w = v := by
  cases v with
  | array items => exact absurd rfl (ha items)
  | table members => exact absurd rfl (ht members)
  | _ => rfl

/-! ### Look-ups -/

theorem mem_of_lookup {name : String} {ms : List (String × Value)} {v : Value}
    (h : ms.lookup name = some v) : (name, v) ∈ ms := by
  induction ms with
  | nil => cases h
  | cons m rest ih =>
    rw [List.lookup_cons] at h
    split at h
    · next he =>
      cases h
      rw [beq_iff_eq] at he
      exact List.mem_cons.2 (Or.inl (Prod.ext he rfl))
    · exact List.mem_cons_of_mem _ (ih h)

theorem lookup_eq_none_iff {name : String} {ms : List (String × Value)} :
    ms.lookup name = none ↔ name ∉ memberNames ms := by
  induction ms with
  | nil => simp
  | cons m rest ih =>
    rw [List.lookup_cons, memberNames, List.map_cons, List.mem_cons, not_or, ← ih]
    split <;> simp_all

theorem lookup_of_mem {ms : List (String × Value)} (hn : (memberNames ms).Nodup)
    {m : String × Value} (hm : m ∈ ms) : ms.lookup m.1 = some m.2 := by
  induction ms with
  | nil => cases hm
  | cons n rest ih =>
    rw [memberNames, List.map_cons, List.nodup_cons] at hn
    rw [List.lookup_cons]
    rcases List.mem_cons.1 hm with rfl | hm
    · rw [beq_self_eq_true]
    · have hne : m.1 ≠ n.1 := fun e => hn.1 (e ▸ List.mem_map_of_mem hm)
      rw [beq_false_of_ne hne]
      exact ih hn.2 hm

/-- Tables that are alike answer every look-up alike. -/
theorem TablesAlike.lookup {xs ys : List (String × Value)} (h : TablesAlike xs ys)
    (name : String) : (xs.lookup name = none ∧ ys.lookup name = none) ∨
      ∃ v w, xs.lookup name = some v ∧ ys.lookup name = some w ∧ v.Alike w := by
  rcases hx : xs.lookup name with - | v
  · refine Or.inl ⟨rfl, lookup_eq_none_iff.2 fun hy => ?_⟩
    exact lookup_eq_none_iff.1 hx (h.names name hy)
  · obtain ⟨w, hw, hv⟩ := h.members _ (mem_of_lookup hx)
    exact Or.inr ⟨v, w, rfl, hw, hv⟩

/-- Each member of the one table is like a member of the other. -/
theorem TablesAlike.of_mem {xs ys : List (String × Value)} (h : TablesAlike xs ys)
    {n : String × Value} (hn : n ∈ ys) : ∃ m ∈ xs, m.1 = n.1 ∧ m.2.Alike n.2 := by
  have hy := lookup_of_mem h.nodup hn
  obtain ⟨-, hy'⟩ | ⟨v, w, hx, hy', hv⟩ := h.lookup n.1
  · rw [hy] at hy'
    cases hy'
  · rw [hy] at hy'
    cases hy'
    exact ⟨_, mem_of_lookup hx, rfl, hv⟩

/-! ### Bounds -/

theorem itemsWithin_iff {b : Bounds} {items : List Value} :
    itemsWithin b items = true ↔ ∀ v ∈ items, v.isWithin b = true := by
  induction items with
  | nil => simp [itemsWithin]
  | cons v items ih => simp [itemsWithin, ih]

theorem membersWithin_iff {b : Bounds} {ms : List (String × Value)} :
    membersWithin b ms = true ↔ ∀ m ∈ ms, m.2.isWithin b = true := by
  induction ms with
  | nil => simp [membersWithin]
  | cons m ms ih => simp [membersWithin, ih]

/-- Bounds that admit a value admit what is like it. -/
theorem Value.Alike.isWithin {b : Bounds} {v : Value} :
    ∀ {w : Value}, v.Alike w → v.isWithin b = true → w.isWithin b = true := by
  induction v using Value.items_induction with
  | scalar v ha ht =>
    intro w h
    rw [(alike_scalar ha ht).1 h]
    exact id
  | array items ih =>
    intro w h hb
    obtain ⟨others, rfl, ho⟩ := alike_array.1 h
    simp only [Value.isWithin, itemsWithin_iff] at hb ⊢
    intro w hw
    obtain ⟨v, hv, hvw⟩ := Text.exists_of_mem_right ho w hw
    exact ih v hv hvw (hb v hv)
  | table members ih =>
    intro w h hb
    obtain ⟨others, rfl, ho⟩ := alike_table.1 h
    simp only [Value.isWithin, membersWithin_iff] at hb ⊢
    intro n hn
    obtain ⟨m, hm, -, hmn⟩ := ho.of_mem hn
    exact ih m hm hmn (hb m hm)

theorem TablesAlike.membersWithin {b : Bounds} {xs ys : List (String × Value)}
    (h : TablesAlike xs ys) (hb : membersWithin b xs = true) : membersWithin b ys = true := by
  rw [membersWithin_iff] at hb ⊢
  intro n hn
  obtain ⟨m, hm, -, hmn⟩ := h.of_mem hn
  exact hmn.isWithin (hb m hm)

end LintHost.Toml
