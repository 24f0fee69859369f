/-
LintHost/Proofs/Severity/Verdicts.lean

What a cascade says of a code, and how edits of its lists change that.  The verdicts
stand in the order error, warning, info, unmatched (`place`).  With the list of one
severity taken out there is a verdict of the other two; the list brings in its own
severity if it holds a prefix of the code, and the earlier one of the two counts
(`place_classify_replace`).  So of a list only this is seen: whether it holds a prefix.

Main result: the verdict is the gravest severity whose list holds a prefix of the code,
and an entry that is added or removed changes the verdict of just those codes that it
starts, that no graver list holds a prefix of and no other entry of its own list starts
(`verdict_is_gravest_listed`).
-/
import LintHost.Severity
import Mathlib.Data.List.Basic

namespace LintHost.Cascade

/-! ### Verdicts -/

/-- The place of a verdict in the order error, warning, info, unmatched. -/
def place : Option Severity → Nat
  | some .error => 0
  | some .warning => 1
  | some .info => 2
  | none => 3

theorem place_inj {a b : Option Severity} : place a = place b ↔ a = b := by
  constructor
  · intro h
    rcases a with - | (_ | _ | _) <;> rcases b with - | (_ | _ | _) <;> first | rfl | cases h
  · exact congrArg place

theorem place_some_lt (s : Severity) : place (some s) < place none := by
  cases s <;> decide

theorem place_le (verdict : Option Severity) : place verdict ≤ place none := by
  cases verdict with
  | none => exact Nat.le_refl _
  | some s => exact Nat.le_of_lt (place_some_lt s)

/-! ### Prefixes -/

/-- Whether a list holds a prefix of a code. -/
def HoldsPrefix (listed : List String) (code : String) : Prop :=
  ∃ p ∈ listed, p.toList <+: code.toList

instance (listed : List String) (code : String) : Decidable (HoldsPrefix listed code) :=
  inferInstanceAs (Decidable (∃ p ∈ listed, _))

theorem covers_iff {listed : List String} {code : String} :
    covers listed code = true ↔ HoldsPrefix listed code := by
  simp [covers, HoldsPrefix]

/-- Whether a list has the entries of another one and one more, wherever this stands and however
often. -/
def Adds (p : String) (left listed : List String) : Prop :=
  ∀ q, q ∈ listed ↔ q = p ∨ q ∈ left

theorem adds_insert (p : String) (before after : List String) :
    Adds p (before ++ after) (before ++ p :: after) := by
  intro q
  simp only [List.mem_append, List.mem_cons]
  exact or_left_comm

theorem Adds.holdsPrefix_iff {p : String} {left listed : List String} (h : Adds p left listed)
    (code : String) :
    HoldsPrefix listed code ↔ p.toList <+: code.toList ∨ HoldsPrefix left code := by
  simp only [HoldsPrefix, h _, or_and_right, exists_or, exists_eq_left]

/-! ### Edits -/

/-- The cascade with another list for a severity. -/
def replace (c : Cascade) (listed : List String) : Severity → Cascade
  | .error => { c with error := listed }
  | .warning => { c with warning := listed }
  | .info => { c with info := listed }

variable {c : Cascade} {s t : Severity} {listed : List String} {code : String}

theorem replace_prefixes (c : Cascade) (s : Severity) : c.replace (c.prefixes s) s = c := by
  cases s <;> rfl

theorem replace_replace (c : Cascade) (first second : List String) (s : Severity) :
    (c.replace first s).replace second s = c.replace second s := by
  cases s <;> rfl

theorem prefixes_replace (c : Cascade) (listed : List String) (s t : Severity) :
    (c.replace listed s).prefixes t = if t = s then listed else c.prefixes t := by
  cases s <;> cases t <;> rfl

/-! ### What a list brings in -/

/-- What a list brings in: its severity if it holds a prefix of the code. -/
def broughtIn (listed : List String) (s : Severity) (code : String) : Option Severity :=
  if covers listed code then some s else none

theorem broughtIn_of_holds (h : HoldsPrefix listed code) : broughtIn listed s code = some s :=
  if_pos (covers_iff.2 h)

theorem broughtIn_of_not (h : ¬ HoldsPrefix listed code) : broughtIn listed s code = none :=
  if_neg (mt covers_iff.1 h)

/-- **The verdict is the earliest one** of what the three lists bring in. -/
theorem place_classify (c : Cascade) (code : String) :
    place (c.classify code)
      = min (place (broughtIn c.error .error code))
          (min (place (broughtIn c.warning .warning code))
            (place (broughtIn c.info .info code))) := by
  simp only [classify, order, prefixes, List.find?_cons, List.find?_nil, broughtIn]
  cases covers c.error code <;> cases covers c.warning code <;> cases covers c.info code <;> rfl

/-- One list against the other two. -/
theorem place_classify_replace (c : Cascade) (listed : List String) (s : Severity)
    (code : String) :
    place ((c.replace listed s).classify code)
      = min (place ((c.replace [] s).classify code)) (place (broughtIn listed s code)) := by
  have hnil : place (broughtIn [] s code) = place none := rfl
  have hlast := place_le (broughtIn listed s code)
  cases s <;> simp only [place_classify, replace] <;> omega

/-- Without its list a severity is never the verdict. -/
theorem place_classify_replace_nil_ne (c : Cascade) (s : Severity) (code : String) :
    place ((c.replace [] s).classify code) ≠ place (some s) := by
  intro h
  have hs := List.find?_some (place_inj.1 h : List.find? _ _ = some s)
  rw [prefixes_replace, if_pos rfl] at hs
  cases hs

/-- Of a list only this is seen, whether it holds a prefix of the code. -/
theorem classify_congr {d : Cascade}
    (h : ∀ s, HoldsPrefix (d.prefixes s) code ↔ HoldsPrefix (c.prefixes s) code) :
    d.classify code = c.classify code := by
  have hcovers : ∀ s, covers (d.prefixes s) code = covers (c.prefixes s) code := by
    intro s
    rw [Bool.eq_iff_iff, covers_iff, covers_iff, h s]
  simp only [classify, hcovers]

/-! ### What an edit changes -/

theorem place_classify_le (c : Cascade) (t : Severity) (code : String) :
    place (c.classify code) ≤ place (broughtIn (c.prefixes t) t code) := by
  have h := place_classify c code
  cases t <;> simp only [prefixes] <;> omega

theorem holdsPrefix_of_classify (h : c.classify code = some s) :
    HoldsPrefix (c.prefixes s) code := by
  have hs := List.find?_some h
  exact covers_iff.1 hs

/-- The verdict is a severity exactly if it is the least one whose list holds a prefix of the
code. -/
theorem classify_eq_some_iff : c.classify code = some s ↔
    HoldsPrefix (c.prefixes s) code ∧
      ∀ t, HoldsPrefix (c.prefixes t) code → place (some s) ≤ place (some t) := by
  constructor
  · intro h
    refine ⟨holdsPrefix_of_classify h, fun t ht => ?_⟩
    rw [← h, ← broughtIn_of_holds ht]
    exact place_classify_le c t code
  · rintro ⟨hs, hleast⟩
    have hle := place_classify_le c s code
    rw [broughtIn_of_holds hs] at hle
    cases h : c.classify code with
    | none =>
      rw [h] at hle
      exact absurd hle (Nat.not_le.2 (place_some_lt s))
    | some t =>
      rw [h] at hle
      exact place_inj.1 (Nat.le_antisymm hle (hleast t (holdsPrefix_of_classify h)))

/-- A list that holds a prefix of the code, against what the other two lists say. -/
theorem place_replace_of_holds (h : HoldsPrefix listed code) :
    place ((c.replace listed s).classify code)
      = min (place ((c.replace [] s).classify code)) (place (some s)) := by
  rw [place_classify_replace, broughtIn_of_holds h]

/-- A list that holds no prefix of the code might as well be empty. -/
theorem place_replace_of_not (h : ¬ HoldsPrefix listed code) :
    place ((c.replace listed s).classify code) = place ((c.replace [] s).classify code) := by
  rw [place_classify_replace, broughtIn_of_not h]
  exact Nat.min_eq_left (place_le _)

theorem place_of_holds (h : HoldsPrefix (c.prefixes s) code) :
    place (c.classify code)
      = min (place ((c.replace [] s).classify code)) (place (some s)) := by
  have hp := place_replace_of_holds (c := c) (s := s) h
  rwa [replace_prefixes] at hp

theorem place_of_not (h : ¬ HoldsPrefix (c.prefixes s) code) :
    place (c.classify code) = place ((c.replace [] s).classify code) := by
  have hp := place_replace_of_not (c := c) (s := s) h
  rwa [replace_prefixes] at hp

/-- A verdict is later than a severity exactly if neither its list nor a graver one holds a prefix
of the code. -/
theorem lt_classify_iff : place (some s) < place (c.classify code) ↔
    ¬ HoldsPrefix (c.prefixes s) code ∧
      place (some s) < place ((c.replace [] s).classify code) := by
  by_cases hp : HoldsPrefix (c.prefixes s) code
  · rw [place_of_holds hp]
    simp only [hp, not_true_eq_false, false_and, iff_false]
    omega
  · rw [place_of_not hp]
    simp only [hp, not_false_eq_true, true_and]

/-- **An edit of a list changes the verdict** exactly if the list comes to hold a prefix of the
code, or holds one no longer, and no graver list holds one. -/
theorem classify_replace_ne_iff : (c.replace listed s).classify code ≠ c.classify code ↔
    ¬ (HoldsPrefix listed code ↔ HoldsPrefix (c.prefixes s) code) ∧
      place (some s) < place ((c.replace [] s).classify code) := by
  have hrest := place_classify_replace_nil_ne c s code
  rw [Ne, ← place_inj]
  by_cases hl : HoldsPrefix listed code <;> by_cases hp : HoldsPrefix (c.prefixes s) code
  · simp [place_replace_of_holds hl, place_of_holds hp, hl, hp]
  · simp only [place_replace_of_holds hl, place_of_not hp, hl, hp, iff_false, not_true_eq_false,
      not_false_eq_true, true_and]
    omega
  · simp only [place_replace_of_not hl, place_of_holds hp, hl, hp, iff_true, not_false_eq_true,
      true_and]
    omega
  · simp [place_replace_of_not hl, place_of_not hp, hl, hp]

/-- An edit of a list is not seen by a code of which a graver list holds a prefix. -/
theorem classify_replace_of_graver (hst : place (some s) < place (some t))
    (hs : HoldsPrefix (c.prefixes s) code) :
    (c.replace listed t).classify code = c.classify code := by
  by_contra hne
  have hlt := (classify_replace_ne_iff.1 hne).2
  have hts : s ≠ t := by
    rintro rfl
    exact Nat.lt_irrefl _ hst
  have hle := place_classify_le (c.replace [] t) s code
  rw [prefixes_replace, if_neg hts, broughtIn_of_holds hs] at hle
  omega

section Entry

variable {p : String} {left : List String}

/-- One entry more. -/
theorem classify_added_ne_iff (h : Adds p (c.prefixes s) listed) :
    (c.replace listed s).classify code ≠ c.classify code ↔
      p.toList <+: code.toList ∧ place (some s) < place (c.classify code) := by
  rw [classify_replace_ne_iff, lt_classify_iff (c := c), h.holdsPrefix_iff]
  tauto

/-- What is left of a list decides about a code whose verdict an entry of it has changed. -/
theorem classify_left (hlt : place (some s) < place (c.classify code)) (left : List String) :
    (c.replace left s).classify code
      = if HoldsPrefix left code then some s else c.classify code := by
  obtain ⟨hp, hrest⟩ := lt_classify_iff.1 hlt
  refine place_inj.1 ?_
  split
  · next hl =>
    rw [place_replace_of_holds hl]
    omega
  · next hl => rw [place_replace_of_not hl, place_of_not hp]

/-- One entry less. -/
theorem classify_removed_ne_iff (h : Adds p left (c.prefixes s)) :
    (c.replace left s).classify code ≠ c.classify code ↔
      p.toList <+: code.toList ∧ c.classify code = some s ∧ ¬ HoldsPrefix left code := by
  have hs : c.classify code = some s ↔ HoldsPrefix (c.prefixes s) code ∧
      place (some s) < place ((c.replace [] s).classify code) := by
    have hrest := place_classify_replace_nil_ne c s code
    rw [← place_inj]
    by_cases hp : HoldsPrefix (c.prefixes s) code
    · simp only [place_of_holds hp, hp, true_and]
      omega
    · simp only [place_of_not hp, hp, false_and, iff_false]
      exact hrest
  rw [classify_replace_ne_iff, hs, h.holdsPrefix_iff]
  tauto

end Entry

/-! ### Rules as a whole -/

/-- **The verdict is the gravest severity whose list holds a prefix of the code**, and none if no
list does.  Neither the order nor the repetition of entries counts, nor an entry that extends
another one.  One entry more changes the verdict of just those codes that it starts and whose
verdict was later, to its own severity; what is left of the list when it is taken out again decides
whether that is undone.  One entry less changes the verdict of just those codes that nothing else
in the list starts.  No code sees an edit of a list below one that holds a prefix of it. -/
theorem verdict_is_gravest_listed (c : Cascade) (code : String) :
    (∀ s, c.classify code = some s ↔ HoldsPrefix (c.prefixes s) code ∧
      ∀ t, HoldsPrefix (c.prefixes t) code → place (some s) ≤ place (some t)) ∧
    (c.classify code = none ↔ ∀ s, ¬ HoldsPrefix (c.prefixes s) code) ∧
    (∀ d : Cascade, (∀ s p, p ∈ d.prefixes s ↔ p ∈ c.prefixes s) →
      d.classify code = c.classify code) ∧
    (∀ s p q listed, p ∈ c.prefixes s → p.toList <+: q.toList → Adds q (c.prefixes s) listed →
      (c.replace listed s).classify code = c.classify code) ∧
    (∀ s p listed, Adds p (c.prefixes s) listed →
      let added := c.replace listed s
      (added.classify code ≠ c.classify code ↔
        p.toList <+: code.toList ∧ place (some s) < place (c.classify code)) ∧
      (added.classify code ≠ c.classify code → added.classify code = some s ∧
        ∀ left, (added.replace left s).classify code
          = if HoldsPrefix left code then some s else c.classify code)) ∧
    (∀ s p left, Adds p left (c.prefixes s) →
      ((c.replace left s).classify code ≠ c.classify code ↔
        p.toList <+: code.toList ∧ c.classify code = some s ∧ ¬ HoldsPrefix left code)) ∧
    (∀ s t listed, place (some s) < place (some t) → HoldsPrefix (c.prefixes s) code →
      (c.replace listed t).classify code = c.classify code) := by
  refine ⟨fun s => classify_eq_some_iff, ?_, ?_, ?_, ?_, ?_, ?_⟩
  · simp only [classify_eq_none_iff, ← covers_iff, Bool.not_eq_true]
  · intro d h
    refine classify_congr fun s => ?_
    simp only [HoldsPrefix, h]
  · intro s p q listed hp hpq hq
    -- what the longer entry starts, the shorter one starts
    have hold : q.toList <+: code.toList → HoldsPrefix (c.prefixes s) code :=
      fun hc => ⟨p, hp, hpq.trans hc⟩
    by_contra hne
    obtain ⟨hc, hlt⟩ := (classify_added_ne_iff hq).1 hne
    exact (lt_classify_iff.1 hlt).1 (hold hc)
  · intro s p listed hp added
    refine ⟨classify_added_ne_iff hp, fun hne => ?_⟩
    obtain ⟨hc, hlt⟩ := (classify_added_ne_iff hp).1 hne
    refine ⟨?_, fun left => ?_⟩
    · rw [classify_left hlt, if_pos ((hp.holdsPrefix_iff code).2 (.inl hc))]
    · rw [replace_replace, classify_left hlt]
  · exact fun s p left hp => classify_removed_ne_iff hp
  · exact fun s t listed hst hs => classify_replace_of_graver hst hs

/-- A code that a warning starts, until an entry that starts it as well comes to the errors. -/
theorem verdict_is_gravest_listed_of_overlap :
    let c : Cascade := ⟨["F"], ["E"], []⟩
    let added := c.replace ["E5", "F"] .error
    c.classify "E501" = some .warning ∧
      Adds "E5" (c.prefixes .error) ["E5", "F"] ∧ added.classify "E501" = some .error ∧
      (added.replace ["F"] .error).classify "E501" = some .warning ∧
      (Cascade.mk ["F", "F"] ["E"] []).classify "E501" = some .warning ∧
      (c.replace ["E50", "E"] .warning).classify "E501" = some .warning ∧
      (c.replace [] .warning).classify "E501" ≠ some .warning ∧
      (c.replace ["E50"] .info).classify "E501" = some .warning := by
  intro c added
  have hwarning : HoldsPrefix (c.prefixes .warning) "E501" := ⟨"E", by decide, by decide⟩
  have hadds : Adds "E5" (c.prefixes .error) ["E5", "F"] := adds_insert "E5" [] ["F"]
  obtain ⟨hleast, -, hsame, hextends, hadd, hremove, hgraver⟩ :=
    verdict_is_gravest_listed c "E501"
  have hverdict : c.classify "E501" = some .warning :=
    (hleast .warning).2 ⟨hwarning, fun t => by cases t <;> decide⟩
  obtain ⟨hchanges, hchanged⟩ := hadd .error "E5" ["E5", "F"] hadds
  obtain ⟨herror, hleft⟩ := hchanged (hchanges.2 ⟨by decide, by rw [hverdict]; decide⟩)
  refine ⟨hverdict, hadds, herror, ?_, ?_, ?_, ?_, ?_⟩
  · rw [hleft, if_neg (by decide), hverdict]
  · rw [hsame _ (by intro s p; cases s <;> simp [prefixes, c]), hverdict]
  · rw [hextends .warning "E" "E50" ["E50", "E"] (by decide) (by decide)
      (adds_insert "E50" [] ["E"]), hverdict]
  · rw [← hverdict]
    exact (hremove .warning "E" [] (adds_insert "E" [] [])).2 ⟨by decide, hverdict, by decide⟩
  · rw [hgraver .warning .info _ (by decide) hwarning, hverdict]

end LintHost.Cascade
