/-
LintHost/Proofs/Toml/Flags.lean

Truth values set in a document.  Where a key of the root table is new or names a value,
setting it keeps the document sound, so that what is written can be read again
(`Document.Sound.setRoot`); the key then stands for the truth value, and all others for
what they did (`lookup_setFlag`).
-/
import Mathlib
import LintHost.Proofs.Toml.RoundTrip

namespace LintHost.Toml

/-! ### Plain tokens -/

theorem readable_of_isKeyPart {c : Char} (h : isKeyPart c = true) : (Token.char c).Readable := by
  have hne : ∀ d, isKeyPart d = false → c ≠ d := by
    rintro d hd rfl
    rw [h] at hd
    cases hd
  refine ⟨?_, hne _ (by decide), by simp [isQuote, hne '"' (by decide), hne '\'' (by decide)]⟩
  have hrange : 0x20 ≤ c.toNat ∧ c.toNat ≠ 0x7F := by
    simp only [isKeyPart, Char.isAlphanum, Char.isAlpha, Char.isUpper, Char.isLower, Char.isDigit,
      Bool.or_eq_true, Bool.and_eq_true, decide_eq_true_eq, beq_iff_eq, ge_iff_le,
      UInt32.le_iff_toNat_le] at h
    rcases h with (h | rfl) | rfl
    · change (65 ≤ c.toNat ∧ c.toNat ≤ 90 ∨ 97 ≤ c.toNat ∧ c.toNat ≤ 122) ∨
        48 ≤ c.toNat ∧ c.toNat ≤ 57 at h
      omega
    · decide
    · decide
  simp [isPlain, hrange.1, hrange.2]

theorem plainChars?_plainTokens (s : String) : plainChars? (plainTokens s) = some s.toList := by
  rw [plainChars?, plainTokens]
  induction s.toList with
  | nil => rfl
  | cons c cs ih =>
    rw [List.map_cons, List.mapM_cons, ih]
    rfl

theorem loose_plainTokens {s : String} (h : s.toList.all isKeyPart = true) :
    Loose (plainTokens s) := by
  refine loose_chars (fun t ht => ?_) fun t ht => ?_ <;> obtain ⟨c, hc, rfl⟩ := List.mem_map.1 ht
  · exact ⟨c, rfl⟩
  · exact readable_of_isKeyPart (List.all_eq_true.1 h c hc)

/-- A key that is spelled by its name can be read again. -/
theorem legible_plain {name : String} (hne : name.toList ≠ [])
    (h : name.toList.all isKeyPart = true) : (Key.plain name).Legible where
  named := by
    change nameOf? (plainTokens name) = some name
    unfold nameOf?
    split
    · next e =>
      obtain ⟨c, -, e⟩ := List.map_eq_singleton_iff.1 e
      cases e
    · rw [plainChars?_plainTokens, Option.bind_eq_bind, Option.bind_some, if_pos ⟨hne, h⟩,
        String.ofList_toList]
  readable := (loose_plainTokens h).clear.readable
  before := rfl
  after := rfl

theorem lined_flag (on : Bool) : Lined (.boolean on) (flagTokens on) := by
  have hread : readWord (plainTokens (if on then "true" else "false"))
      = some (⟨.boolean on, plainTokens (if on then "true" else "false")⟩, []) := by
    cases on <;> rfl
  have hclear : Clear (plainTokens (if on then "true" else "false")) :=
    (loose_plainTokens (by cases on <;> decide)).clear
  have hword := (steady_word maxDepth hclear hread).1
  have hblank : [Token.char ' '].all Token.isBlank = true := by decide
  have hend : LineEnd [] := ⟨rfl, trivial⟩
  have hlined := Lined.intro hblank hword hend
  cases on <;> exact hlined

/-! ### The change as a put -/

theorem setFlag_of_none {name : String} {ms : Members} (h : member? name ms = none) (on : Bool) :
    setFlag name on ms = put name (Key.plain name, Node.flag on) ms := by
  induction ms with
  | nil => rfl
  | cons m ms ih =>
    obtain ⟨key, node⟩ := m
    rw [member?_eq_none_iff, names, List.map_cons, List.mem_cons, not_or] at h
    rw [setFlag, put, if_neg (Ne.symm h.1), if_neg (Ne.symm h.1), ih (member?_eq_none_iff.2 h.2)]

theorem setFlag_of_some {name : String} {ms : Members} {key : Key} {node : Node}
    (h : member? name ms = some (key, node)) (on : Bool) :
    setFlag name on ms = put name (key, Node.flag on) ms := by
  induction ms with
  | nil => cases h
  | cons m ms ih =>
    obtain ⟨key', node'⟩ := m
    rw [member?, List.find?_cons] at h
    by_cases hn : key'.name = name
    · rw [beq_iff_eq.2 hn] at h
      cases h
      rw [setFlag, put, if_pos hn, if_pos hn]
    · rw [beq_false_of_ne hn] at h
      rw [setFlag, put, if_neg hn, if_neg hn, ih h]

/-- Setting a truth value changes what one name stands for. -/
theorem changed_setFlag (name : String) (on : Bool) (ms : Members) :
    Changed name (Node.flag on) ms (setFlag name on ms) := by
  rcases hm : member? name ms with - | ⟨key, node⟩
  · exact ⟨Key.plain name, rfl, setFlag_of_none hm on⟩
  · exact ⟨key, (member?_eq_some hm).1, setFlag_of_some hm on⟩

/-- The key that was set stands for the truth value, and every other one for what it did. -/
theorem lookup_setFlag (name other : String) (on : Bool) (ms : Members) :
    (valuesOf (setFlag name on ms)).lookup other
      = if other = name then some (.boolean on) else (valuesOf ms).lookup other := by
  rw [lookup_valuesOf, lookup_valuesOf]
  split
  · next h => rw [h, (changed_setFlag name on ms).node?_self]; rfl
  · next h => rw [(changed_setFlag name on ms).node?_of_ne h]

/-- What the members say after a truth value was set is that truth value or was said before. -/
theorem mem_valuesOf_setFlag {name : String} {on : Bool} {ms : Members} {m : String × Value}
    (h : m ∈ valuesOf (setFlag name on ms)) : m = (name, .boolean on) ∨ m ∈ valuesOf ms := by
  induction ms with
  | nil => exact Or.inl (List.mem_singleton.1 h)
  | cons n ms ih =>
    obtain ⟨key, node⟩ := n
    rw [setFlag] at h
    split at h
    · next hname =>
      rcases List.mem_cons.1 h with rfl | h
      · exact Or.inl (by rw [hname]; rfl)
      · exact Or.inr (List.mem_cons_of_mem _ h)
    · rcases List.mem_cons.1 h with rfl | h
      · exact Or.inr (List.mem_cons_self ..)
      · exact (ih h).imp_right (List.mem_cons_of_mem _)

/-! ### Soundness -/

/-- Setting a truth value for a key that is new or names a value keeps the document sound. -/
theorem Document.Sound.setRoot {d : Document} (h : d.Sound) {name : String}
    (hname : (Key.plain name).Legible)
    (hvalue : ∀ n, node? name d.members = some n → ∃ v right, n = .value v right) (on : Bool) :
    (d.setRoot name on).Sound := by
  have hgrows : Grows lineMarks .root [] d.members (setFlag name on d.members) := by
    have hsound : ∀ {key : Key}, key.Fringed Token.isGap Token.isBlank →
        (Node.flag on).Sound lineMarks .root key := fun hf =>
      ⟨rfl, by decide, hf, lined_flag on⟩
    rcases hm : member? name d.members with - | ⟨key, node⟩
    · rw [setFlag_of_none hm]
      have hgap : [Token.char ' '].all Token.isBlank = true := by decide
      exact h.members.grows_new hm hname
        (hsound ⟨rfl, hgap, Loose.nil, loose_blank hgap⟩) (List.Perm.refl _)
    · rw [setFlag_of_some hm]
      obtain ⟨v, right, rfl⟩ := hvalue node (by rw [node?, hm]; rfl)
      obtain ⟨-, -, hf, -⟩ := h.members.sound _ (member?_eq_some hm).2
      exact h.members.grows_old hm (hsound hf) (List.Perm.refl _)
  obtain ⟨n, hn⟩ := h.places
  exact ⟨hgrows.sound, ⟨n, hgrows.places.trans hn⟩, h.gap, h.clear⟩

end LintHost.Toml
