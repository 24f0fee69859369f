/-
LintHost/Proofs/Settings/Switching.lean

A switch turned over in a text.  Where a text gives settings, and all its numbers can be used
in a document that is edited, a switch can be turned over in it: the new position is the
opposite of the one that was read, and the new text gives the same settings but for that switch
(`toggle?_of_read?`).
-/
import LintHost.Proofs.Settings.Reading
import LintHost.Proofs.Toml.Flags
import LintHost.Settings.Toggle

namespace LintHost.Settings

open Toml (Value Members Document TablesAlike valuesOf setFlag membersWithin)

variable {env : Environment} {c : Settings} {xs ys : List (String × Value)}

/-! ### The position of a switch -/

/-- Where a table gives settings, a switch is a truth value in it or is not there. -/
theorem Says.lookup_switch (h : Says env xs c) (w : Switch) :
    xs.lookup w.key = none ∧ c.get w = true ∨ xs.lookup w.key = some (.boolean (c.get w)) := by
  have hk := h.keyed_switch w
  unfold keyed at hk
  split at hk
  · next hl => exact Or.inl ⟨hl, (Option.some.inj hk).symm⟩
  · next v hl =>
    rw [hl]
    cases v with
    | boolean on =>
      obtain rfl := Option.some.inj hk
      exact Or.inr rfl
    | _ => cases hk

/-- A switch has the position in a root table that it has in the settings. -/
theorem Says.position (h : Says env xs c) (w : Switch) : w.position xs = c.get w := by
  unfold Switch.position
  obtain ⟨hl, hc⟩ | hl := h.lookup_switch w
  · rw [hl, hc]
  · rw [hl]

/-- A switch that is stored at all is stored as a value, not as a table. -/
theorem Says.switch_value {ms : Members} (h : Says env (valuesOf ms) c) (w : Switch)
    {n : Toml.Node} (hn : Toml.node? w.key ms = some n) : ∃ v right, n = .value v right := by
  have hl := h.lookup_switch w
  rw [Toml.lookup_valuesOf, hn] at hl
  obtain ⟨hl, -⟩ | hl := hl
  · cases hl
  · cases n with
    | value v right => exact ⟨v, right, rfl⟩
    | table origin ms => cases hl
    | tables newest older => cases hl

theorem legible_key (w : Switch) : (Toml.Key.plain w.key).Legible := by
  cases w with
  | enabled => exact Toml.legible_plain (by decide) (by decide)
  | useNoqa => exact Toml.legible_plain (by decide) (by decide)

/-! ### A switch that is set -/

/-- Numbers within bounds stay so where a truth value is set. -/
theorem membersWithin_setFlag {b : Toml.Bounds} {ms : Members} (name : String) (on : Bool)
    (h : membersWithin b (valuesOf ms) = true) :
    membersWithin b (valuesOf (setFlag name on ms)) = true := by
  rw [Toml.membersWithin_iff] at h ⊢
  intro m hm
  rcases Toml.mem_valuesOf_setFlag hm with rfl | hm
  · simp only [Value.isWithin]
  · exact h m hm

/-- Where a truth value is set the named groups stay within bounds. -/
theorem named?_setFlag {names : List String} {ms : Members} (name : String) (on : Bool)
    (h : named? names (valuesOf ms) = some (valuesOf ms)) :
    named? names (valuesOf (setFlag name on ms)) = some (valuesOf (setFlag name on ms)) := by
  unfold named? at h ⊢
  split at h
  · next hwithin =>
    refine if_pos (Toml.membersWithin_iff.2 fun m hm => ?_)
    rw [List.mem_filter] at hm
    rcases Toml.mem_valuesOf_setFlag hm.1 with rfl | hold
    · simp only [Value.isWithin]
    · exact Toml.membersWithin_iff.1 hwithin m (List.mem_filter.2 ⟨hold, hm.2⟩)
  · cases h

/-- A truth value is read from any entry that is alike. -/
theorem keyed_boolean {name : String} {on : Bool}
    (h : Option.Rel Value.Alike (some (.boolean on)) (ys.lookup name)) :
    keyed ys name boolean true = some on := by
  have hnew : List.lookup name [(name, Value.boolean on)] = some (.boolean on) := by
    rw [List.lookup_cons, beq_self_eq_true]
  have hkeyed : keyed [(name, Value.boolean on)] name boolean true = some on := by
    rw [keyed, hnew]
    rfl
  rw [← hnew] at h
  exact keyed_alike steadfast_boolean h hkeyed

/-- Where a switch is set in a root table, the settings are the same but for that switch. -/
theorem Says.set {ms : Members} (h : Says env (valuesOf ms) c) (w : Switch) (on : Bool)
    (hall : TablesAlike (valuesOf (setFlag w.key on ms)) ys) : Says env ys (c.set on w) := by
  have hnamed := named?_alike hall (named?_setFlag w.key on h.named)
  have hrel := rel_lookup hall
  simp only [Toml.lookup_setFlag] at hrel
  have hself : keyed ys w.key boolean true = some on := by
    have hw := hrel w.key
    rw [if_pos rfl] at hw
    exact keyed_boolean hw
  have hother : ∀ name, name ≠ w.key →
      Option.Rel Value.Alike ((valuesOf ms).lookup name) (ys.lookup name) := fun name hne => by
    have hw := hrel name
    rwa [if_neg hne] at hw
  cases w with
  | enabled =>
    exact h.replace hnamed hself
      (keyed_alike steadfast_boolean (hother _ (by decide)) h.useNoqa) fun name hne _ =>
        hother name hne
  | useNoqa =>
    exact h.replace hnamed
      (keyed_alike steadfast_boolean (hother _ (by decide)) h.enabled) hself fun name _ hne =>
        hother name hne

/-! ### Texts -/

/-- Whether all numbers in a text can be used in a document that is edited: the integers as signed
64-bit words, the floats as finite 64-bit ones. -/
def Editable (s : List Char) : Prop :=
  ∀ ms, Toml.membersOf? s = some ms → membersWithin .narrow ms = true

/-- A switch can be turned over in a text that gives settings.  The result is the opposite of the
position that was read; the new text gives the settings with the switch in that position, and can
be edited again. -/
theorem toggle?_of_read? {s : List Char} (h : read? env s = some c) (hs : Editable s) (w : Switch) :
    ∃ edited, toggle? w s = some (!c.get w, edited) ∧
      read? env edited = some (c.set (!c.get w) w) ∧ Editable edited := by
  obtain ⟨ms, hms, hgives⟩ := Option.bind_eq_some_iff.1 h
  obtain ⟨d, hd, rfl⟩ := Option.map_eq_some_iff.1 hms
  have hgives : Says env (valuesOf d.members) c := ofMembers?_eq_some_iff.1 hgives
  have hnarrow : membersWithin .narrow d.values = true := hs _ hms
  have hsound : (d.setRoot w.key (!c.get w)).Sound :=
    (Toml.sound_of_read_document hd).setRoot (legible_key w) (fun n => hgives.switch_value w) _
  obtain ⟨d', hd', hall⟩ := hsound.again
  have hms' : Toml.membersOf? (d.setRoot w.key (!c.get w)).print = some d'.values :=
    Option.map_eq_some_iff.2 ⟨d', hd', rfl⟩
  refine ⟨(d.setRoot w.key (!c.get w)).print, ?_, ?_, fun ms hms => ?_⟩
  · refine Option.bind_eq_some_iff.2 ⟨d, hd, ?_⟩
    have hposition : w.position d.values = c.get w := hgives.position w
    simp only [hnarrow, hposition]
    rfl
  · exact Option.bind_eq_some_iff.2 ⟨d'.values, hms',
      ofMembers?_eq_some_iff.2 (hgives.set w _ hall)⟩
  · rw [hms'] at hms
    obtain rfl := Option.some.inj hms
    exact hall.membersWithin (membersWithin_setFlag w.key _ hnarrow)

/-- In a text with numbers that cannot be used nothing is turned over. -/
theorem toggle?_eq_none {s : List Char} (hs : Toml.membersOf? s = some xs)
    (hwide : membersWithin .narrow xs = false) (w : Switch) : toggle? w s = none := by
  obtain ⟨d, hd, rfl⟩ := Option.map_eq_some_iff.1 hs
  have hd' : membersWithin .narrow d.values = false := hwide
  rw [toggle?, hd, Option.bind_eq_bind, Option.bind_some, hd']
  rfl

end LintHost.Settings
