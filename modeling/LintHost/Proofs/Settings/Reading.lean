/-
LintHost/Proofs/Settings/Reading.lean

What settings are read from.  Settings come from the look-ups of their keys and from nothing
else (`ofMembers?_eq_some_iff`), and no decoder looks at the order in which the members of a
table come (`Steadfast`).  So tables that are alike give the same settings but for the keys
that are switched (`Says.replace`).
-/
import LintHost.Proofs.Toml.Alike
import LintHost.Settings.Reading

namespace LintHost.Settings

open Toml (Value TablesAlike memberNames membersWithin)

/-! ### Decoders -/

/-- Whether a decoder makes of what is like a value what it makes of the value. -/
def Steadfast {α : Type} (decode : Decode α) : Prop :=
  ∀ ⦃v w : Value⦄ ⦃a : α⦄, v.Alike w → decode v = some a → decode w = some a

/-- A decoder that looks at one kind of value without parts is steadfast. -/
theorem steadfast_of_scalar {α : Type} {decode : Decode α}
    (ha : ∀ items, decode (.array items) = none) (ht : ∀ members, decode (.table members) = none) :
    Steadfast decode := by
  intro v w a hvw hv
  have hscalar : v.Alike w ↔ w = v := by
    refine Toml.alike_scalar ?_ ?_
    · rintro items rfl
      rw [ha] at hv
      cases hv
    · rintro members rfl
      rw [ht] at hv
      cases hv
  rw [hscalar.1 hvw]
  exact hv

theorem steadfast_boolean : Steadfast boolean :=
  steadfast_of_scalar (fun _ => rfl) fun _ => rfl

theorem steadfast_string : Steadfast string :=
  steadfast_of_scalar (fun _ => rfl) fun _ => rfl

theorem steadfast_word : Steadfast word :=
  steadfast_of_scalar (fun _ => rfl) fun _ => rfl

theorem steadfast_someString : Steadfast fun v => (string v).map some :=
  steadfast_of_scalar (fun _ => rfl) fun _ => rfl

theorem steadfast_strings : Steadfast strings := by
  intro v w a hvw hv
  cases v with
  | array items =>
    obtain ⟨others, rfl, hall⟩ := Toml.alike_array.1 hvw
    change items.mapM string = some a at hv
    change others.mapM string = some a
    rw [Text.mapM_eq_some_iff] at hv ⊢
    clear hvw
    induction hall generalizing a with
    | nil => exact hv
    | cons hvw _ ih =>
      obtain ⟨s, texts, hs, hrest, rfl⟩ := List.forall₂_cons_left_iff.1 hv
      exact .cons (steadfast_string hvw hs) (ih hrest)
  | _ => cases hv

/-! ### Keys -/

variable {xs ys : List (String × Value)} {name : String}

/-- Where a key stands for like values, what is read under it is the same. -/
theorem keyed_alike {α : Type} {decode : Decode α} (hd : Steadfast decode) {default a : α}
    (h : Option.Rel Value.Alike (xs.lookup name) (ys.lookup name))
    (hx : keyed xs name decode default = some a) : keyed ys name decode default = some a := by
  unfold keyed at hx ⊢
  generalize xs.lookup name = x at h hx
  generalize ys.lookup name = y at h
  cases h with
  | none => exact hx
  | some hvw => exact hd hvw hx

theorem rel_lookup (h : TablesAlike xs ys) (name : String) :
    Option.Rel Value.Alike (xs.lookup name) (ys.lookup name) := by
  obtain ⟨hx, hy⟩ | ⟨v, w, hx, hy, hvw⟩ := h.lookup name
  · rw [hx, hy]
    exact .none
  · rw [hx, hy]
    exact .some hvw

/-- Numbers under names that are not known can be used in a table if they can in one like it. -/
theorem named?_alike (h : TablesAlike xs ys) {names : List String}
    (hx : named? names xs = some xs) : named? names ys = some ys := by
  unfold named? at hx ⊢
  split at hx
  · next hwithin =>
    refine if_pos (Toml.membersWithin_iff.2 fun n hn => ?_)
    rw [List.mem_filter] at hn
    obtain ⟨m, hm, hname, hmn⟩ := h.of_mem hn.1
    refine hmn.isWithin (Toml.membersWithin_iff.1 hwithin m (List.mem_filter.2 ⟨hm, ?_⟩))
    rw [hname]
    exact hn.2
  · cases hx

theorem eq_of_named? {names : List String} (h : named? names xs = some ys) : ys = xs := by
  unfold named? at h
  split at h
  · exact (Option.some.inj h).symm
  · cases h

/-- The fields of a section stand for like values in sections that are alike. -/
theorem fields?_alike {names : List String} {v w : Value} (hvw : v.Alike w)
    (hv : fields? names v = some xs) : ∃ ys, fields? names w = some ys ∧
      ∀ name, Option.Rel Value.Alike (xs.lookup name) (ys.lookup name) := by
  cases v with
  | table members =>
    obtain ⟨others, rfl, hall⟩ := Toml.alike_table.1 hvw
    obtain rfl := eq_of_named? hv
    exact ⟨others, named?_alike hall hv, rel_lookup hall⟩
  | array items =>
    obtain ⟨others, rfl, hall⟩ := Toml.alike_array.1 hvw
    cases hv
    refine ⟨names.zip others, rfl, fun name => ?_⟩
    clear hvw
    -- the fields are told by their places, one after the other
    induction hall generalizing names with
    | nil =>
      rw [List.zip_nil_right]
      exact .none
    | cons hvw _ ih =>
      cases names with
      | nil => exact .none
      | cons first names =>
        rw [List.zip_cons_cons, List.zip_cons_cons, List.lookup_cons, List.lookup_cons]
        split
        · exact .some hvw
        · exact ih
  | date spelling =>
    cases hv
    obtain rfl := (Toml.alike_scalar (by simp) (by simp)).1 hvw
    exact ⟨[], rfl, fun _ => .none⟩
  | _ => cases hv

theorem steadfast_cascade : Steadfast cascade? := by
  intro v w a hvw hv
  simp only [cascade?, Option.bind_eq_bind, Option.bind_eq_some_iff, Option.pure_def,
    Option.some.injEq] at hv ⊢
  obtain ⟨xs, hxs, error, he, warning, hw, info, hi, rfl⟩ := hv
  obtain ⟨ys, hys, hall⟩ := fields?_alike hvw hxs
  exact ⟨ys, hys, error, keyed_alike steadfast_strings (hall _) he, warning,
    keyed_alike steadfast_strings (hall _) hw, info, keyed_alike steadfast_strings (hall _) hi, rfl⟩

theorem steadfast_limits : Steadfast limits? := by
  intro v w a hvw hv
  simp only [limits?, Option.bind_eq_bind, Option.bind_eq_some_iff, Option.pure_def,
    Option.some.injEq] at hv ⊢
  obtain ⟨xs, hxs, timeout, ht, output, ho, rfl⟩ := hv
  obtain ⟨ys, hys, hall⟩ := fields?_alike hvw hxs
  exact ⟨ys, hys, timeout, keyed_alike steadfast_word (hall _) ht, output,
    keyed_alike steadfast_word (hall _) ho, rfl⟩

/-! ### Settings key by key -/

/-- Whether the members of a root table give settings, key by key. -/
structure Says (env : Environment) (ms : List (String × Value)) (c : Settings) : Prop where
  named : named? keys ms = some ms
  enabled : keyed ms "enabled" boolean true = some c.enabled
  executable : ∃ s, keyed ms "executable" string "ruff" = some s ∧ c.executable = env.expandString s
  configPath : ∃ s, keyed ms "config_path" (fun v => (string v).map some) none = some s ∧
    c.configPath = s.map fun s => fromHome env (env.expandString s)
  targetVersion : keyed ms "target_version" (fun v => (string v).map some) none
    = some c.targetVersion
  useNoqa : keyed ms "use_noqa" boolean true = some c.useNoqa
  markUnmatched : keyed ms "mark_uncategorized" boolean true = some c.markUnmatched
  allowMagic : keyed ms "allow_magic" boolean false = some c.allowMagic
  select : keyed ms "select" strings [] = some c.select
  ignore : keyed ms "ignore" strings [] = some c.ignore
  fixable : keyed ms "fixable" strings [] = some c.fixable
  unfixable : keyed ms "unfixable" strings [] = some c.unfixable
  cascade : keyed ms "severity" cascade? {} = some c.cascade
  limits : keyed ms "process" limits? {} = some c.limits

variable {env : Environment} {c : Settings}

/-- Settings are what the keys stand for. -/
theorem ofMembers?_eq_some_iff : ofMembers? env xs = some c ↔ Says env xs c := by
  constructor
  · intro h
    obtain ⟨ms, hms, h⟩ := Option.bind_eq_some_iff.1 h
    obtain ⟨executable, hexecutable, h⟩ := Option.bind_eq_some_iff.1 h
    obtain ⟨path, hpath, h⟩ := Option.bind_eq_some_iff.1 h
    obtain ⟨enabled, henabled, h⟩ := Option.bind_eq_some_iff.1 h
    obtain ⟨version, hversion, h⟩ := Option.bind_eq_some_iff.1 h
    obtain ⟨noqa, hnoqa, h⟩ := Option.bind_eq_some_iff.1 h
    obtain ⟨mark, hmark, h⟩ := Option.bind_eq_some_iff.1 h
    obtain ⟨magic, hmagic, h⟩ := Option.bind_eq_some_iff.1 h
    obtain ⟨select, hselect, h⟩ := Option.bind_eq_some_iff.1 h
    obtain ⟨ignore, hignore, h⟩ := Option.bind_eq_some_iff.1 h
    obtain ⟨fixable, hfixable, h⟩ := Option.bind_eq_some_iff.1 h
    obtain ⟨unfixable, hunfixable, h⟩ := Option.bind_eq_some_iff.1 h
    obtain ⟨cascade, hcascade, h⟩ := Option.bind_eq_some_iff.1 h
    obtain ⟨limits, hlimits, h⟩ := Option.bind_eq_some_iff.1 h
    cases h
    obtain rfl := eq_of_named? hms
    exact ⟨hms, henabled, ⟨executable, hexecutable, rfl⟩, ⟨path, hpath, rfl⟩, hversion, hnoqa,
      hmark, hmagic, hselect, hignore, hfixable, hunfixable, hcascade, hlimits⟩
  · intro h
    obtain ⟨executable, hexecutable, e1⟩ := h.executable
    obtain ⟨path, hpath, e2⟩ := h.configPath
    refine Option.bind_eq_some_iff.2 ⟨_, h.named, ?_⟩
    refine Option.bind_eq_some_iff.2 ⟨_, hexecutable, ?_⟩
    refine Option.bind_eq_some_iff.2 ⟨_, hpath, ?_⟩
    refine Option.bind_eq_some_iff.2 ⟨_, h.enabled, ?_⟩
    refine Option.bind_eq_some_iff.2 ⟨_, h.targetVersion, ?_⟩
    refine Option.bind_eq_some_iff.2 ⟨_, h.useNoqa, ?_⟩
    refine Option.bind_eq_some_iff.2 ⟨_, h.markUnmatched, ?_⟩
    refine Option.bind_eq_some_iff.2 ⟨_, h.allowMagic, ?_⟩
    refine Option.bind_eq_some_iff.2 ⟨_, h.select, ?_⟩
    refine Option.bind_eq_some_iff.2 ⟨_, h.ignore, ?_⟩
    refine Option.bind_eq_some_iff.2 ⟨_, h.fixable, ?_⟩
    refine Option.bind_eq_some_iff.2 ⟨_, h.unfixable, ?_⟩
    refine Option.bind_eq_some_iff.2 ⟨_, h.cascade, ?_⟩
    refine Option.bind_eq_some_iff.2 ⟨_, h.limits, ?_⟩
    rw [← e1, ← e2]
    rfl

/-- Where all keys but the two that are switched stand for like values, the settings are the same
but for the two switches. -/
theorem Says.replace {on noqa : Bool} (h : Says env xs c) (hnamed : named? keys ys = some ys)
    (hon : keyed ys "enabled" boolean true = some on)
    (hnoqa : keyed ys "use_noqa" boolean true = some noqa)
    (hrest : ∀ name, name ≠ "enabled" → name ≠ "use_noqa" →
      Option.Rel Value.Alike (xs.lookup name) (ys.lookup name)) :
    Says env ys { c with enabled := on, useNoqa := noqa } where
  named := hnamed
  enabled := hon
  useNoqa := hnoqa
  executable := h.executable.imp fun _ hs =>
    hs.imp_left (keyed_alike steadfast_string (hrest _ (by decide) (by decide)))
  configPath := h.configPath.imp fun _ hs =>
    hs.imp_left (keyed_alike steadfast_someString (hrest _ (by decide) (by decide)))
  targetVersion :=
    keyed_alike steadfast_someString (hrest _ (by decide) (by decide)) h.targetVersion
  markUnmatched := keyed_alike steadfast_boolean (hrest _ (by decide) (by decide)) h.markUnmatched
  allowMagic := keyed_alike steadfast_boolean (hrest _ (by decide) (by decide)) h.allowMagic
  select := keyed_alike steadfast_strings (hrest _ (by decide) (by decide)) h.select
  ignore := keyed_alike steadfast_strings (hrest _ (by decide) (by decide)) h.ignore
  fixable := keyed_alike steadfast_strings (hrest _ (by decide) (by decide)) h.fixable
  unfixable := keyed_alike steadfast_strings (hrest _ (by decide) (by decide)) h.unfixable
  cascade := keyed_alike steadfast_cascade (hrest _ (by decide) (by decide)) h.cascade
  limits := keyed_alike steadfast_limits (hrest _ (by decide) (by decide)) h.limits

/-- What is read under the key of a switch is its position in the settings. -/
theorem Says.keyed_switch (h : Says env xs c) (w : Switch) :
    keyed xs w.key boolean true = some (c.get w) := by
  cases w with
  | enabled => exact h.enabled
  | useNoqa => exact h.useNoqa

end LintHost.Settings
