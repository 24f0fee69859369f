/-
LintHost/Proofs/Toml/Paths.lean

Reading paths again.  A key is legible if its spelling names it, and what reading a path
gives is legible (`pathIn_of_readPath`).  A path of legible keys is read again with the
same names, wherever its keys were met (`readPath_pathTokens`), and it is clear in front of
what ends it (`clear_pathTokens`).
-/
import LintHost.Proofs.Text.Pairing
import LintHost.Proofs.Text.Separators
import LintHost.Proofs.Toml.Tokens
import LintHost.Toml.Key
import Mathlib.Data.List.Basic

namespace LintHost.Toml

/-! ### Labels -/

/-- What keys are spelled with: strings and key characters. -/
def Token.isLabel : Token → Bool
  | quoted .. => true
  | char c => isKeyPart c
  | comment _ | newline => false

theorem Token.isGap_of_isBlank {t : Token} (h : t.isBlank = true) : t.isGap = true := by
  cases t with
  | quoted | char => exact h
  | comment | newline => rfl

theorem Token.isBlank_iff {t : Token} : t.isBlank = true ↔ t = char ' ' ∨ t = char '\t' := by
  simp [isBlank]

theorem Token.isGap_of_isLabel {t : Token} (h : t.isLabel = true) : t.isGap = false := by
  cases t with
  | quoted => rfl
  | comment | newline => cases h
  | char c =>
    rw [Bool.eq_false_iff]
    intro hg
    rcases isBlank_iff.1 hg with e | e <;> cases e <;> exact absurd h (by decide)

theorem Token.isBlank_of_isLabel {t : Token} (h : t.isLabel = true) : t.isBlank = false := by
  rw [Bool.eq_false_iff]
  intro hb
  have := Token.isGap_of_isBlank hb
  rw [Token.isGap_of_isLabel h] at this
  cases this

theorem plainChars?_eq_some {ts : List Token} {cs : List Char} (h : plainChars? ts = some cs) :
    ts = cs.map Token.char := by
  induction ts generalizing cs with
  | nil => cases h; rfl
  | cons t ts ih =>
    simp only [plainChars?, List.mapM_cons, Option.bind_eq_bind, Option.bind_eq_some_iff,
      Option.pure_def, Option.some.injEq] at h
    obtain ⟨c, hc, cs, hcs, rfl⟩ := h
    cases t with
    | char d => cases hc; rw [ih hcs, List.map_cons]
    | quoted | comment | newline => cases hc

theorem nameOf?_eq_some {ts : List Token} {name : String} (h : nameOf? ts = some name) :
    (∃ spelling value, ts = [.quoted spelling false value]) ∨
      ts ≠ [] ∧ ∀ t ∈ ts, ∃ c, t = .char c ∧ isKeyPart c = true := by
  unfold nameOf? at h
  split at h
  · exact Or.inl ⟨_, _, rfl⟩
  · simp only [Option.bind_eq_bind, Option.bind_eq_some_iff, Option.ite_none_right_eq_some] at h
    obtain ⟨cs, hcs, ⟨hne, hall⟩, -⟩ := h
    obtain rfl := plainChars?_eq_some hcs
    refine Or.inr ⟨by simpa using hne, fun t ht => ?_⟩
    obtain ⟨c, hc, rfl⟩ := List.mem_map.1 ht
    exact ⟨c, rfl, List.all_eq_true.1 hall c hc⟩

/-- A key that is spelled by what names it, with nothing but blanks around. -/
structure Key.Legible (k : Key) : Prop where
  named : nameOf? k.spelling = some k.name
  readable : ∀ t ∈ k.spelling, t.Readable
  before : k.before.all Token.isBlank = true
  after : k.after.all Token.isBlank = true

theorem isLabel_of_nameOf? {ts : List Token} {name : String} (h : nameOf? ts = some name) :
    ts ≠ [] ∧ ∀ t ∈ ts, t.isLabel = true := by
  rcases nameOf?_eq_some h with ⟨_, _, rfl⟩ | ⟨hne, hall⟩
  · simp [Token.isLabel]
  · refine ⟨hne, fun t ht => ?_⟩
    obtain ⟨c, rfl, hc⟩ := hall t ht
    exact hc

theorem Key.Legible.spelling_ne_nil {k : Key} (h : k.Legible) : k.spelling ≠ [] :=
  (isLabel_of_nameOf? h.named).1

theorem Key.Legible.isLabel {k : Key} (h : k.Legible) : ∀ t ∈ k.spelling, t.isLabel = true :=
  (isLabel_of_nameOf? h.named).2

theorem Key.Legible.sealed {k : Key} (h : k.Legible) : Sealed k.spelling := by
  rcases nameOf?_eq_some h.named with ⟨_, _, e⟩ | ⟨-, hall⟩
  · have hr := h.readable
    rw [e] at hr ⊢
    exact sealed_quoted (hr _ (by simp))
  · exact (loose_chars (fun t ht => (hall t ht).imp fun _ hc => hc.1) h.readable).sealed

/-! ### Writing -/

theorem dotted_cons (k l : Key) (path : List Key) :
    dotted (k :: l :: path)
      = k.spelling ++ k.after ++ .char '.' :: (l.before ++ dotted (l :: path)) := by
  rw [dotted]

theorem dotted_ne_nil {k : Key} (h : k.Legible) (path : List Key) : dotted (k :: path) ≠ [] := by
  cases path with
  | nil => exact h.spelling_ne_nil
  | cons l path => simp [dotted_cons, h.spelling_ne_nil]

theorem blank_readable {g : List Token} (h : g.all Token.isBlank = true) :
    ∀ t ∈ g, t.Readable := by
  intro t ht
  rcases Token.isBlank_iff.1 (List.all_eq_true.1 h t ht) with rfl | rfl <;>
    exact ⟨by decide, by decide, by decide⟩

theorem loose_blank {g : List Token} (h : g.all Token.isBlank = true) : Loose g :=
  loose_chars
    (fun t ht => by
      rcases Token.isBlank_iff.1 (List.all_eq_true.1 h t ht) with rfl | rfl <;> exact ⟨_, rfl⟩)
    (blank_readable h)

theorem gap_quoted (s : List Char) (m : Bool) (v : List Char) :
    Token.isGap (.quoted s m v) = false := rfl

theorem blank_quoted (s : List Char) (m : Bool) (v : List Char) :
    Token.isBlank (.quoted s m v) = false := rfl

theorem sealed_dotted {path : List Key} (h : ∀ k ∈ path, k.Legible) : Sealed (dotted path) := by
  induction path with
  | nil => exact Loose.nil.sealed
  | cons k path ih =>
    have hk := h k List.mem_cons_self
    cases path with
    | nil => exact hk.sealed
    | cons l path =>
      have hl := h l (List.mem_cons_of_mem _ List.mem_cons_self)
      rw [dotted_cons, List.append_assoc, List.append_cons, ← List.append_assoc]
      have hdot : Loose (k.after ++ [.char '.']) :=
        (loose_blank hk.after).append (loose_char ⟨by decide, by decide, by decide⟩)
      intro ts hc hts
      have hrest : Clear (l.before ++ dotted (l :: path) ++ ts) := by
        rw [List.append_assoc]
        exact loose_blank hl.before _
          (ih (fun m hm => h m (List.mem_cons_of_mem _ hm)) ts hc hts)
      have := hk.sealed _
        (by
          rw [List.append_assoc]
          exact calm_append blank_quoted hk.after (calm_char _ _))
        (hdot _ hrest)
      simpa only [List.append_assoc, List.singleton_append, List.cons_append] using this

/-- What a path stands between: rows of the given kinds, after which nothing need be minded. -/
structure Key.Fringed (leading trailing : Token → Bool) (k : Key) : Prop where
  lead : k.lead.all leading = true
  gap : k.gap.all trailing = true
  looseLead : Loose k.lead
  looseGap : Loose k.gap

theorem Key.Fringed.mono {leading trailing leading' trailing' : Token → Bool} {k : Key}
    (h : k.Fringed leading trailing) (hl : ∀ t, leading t = true → leading' t = true)
    (ht : ∀ t, trailing t = true → trailing' t = true) : k.Fringed leading' trailing' :=
  ⟨List.all_eq_true.2 fun t hm => hl t (List.all_eq_true.1 h.lead t hm),
    List.all_eq_true.2 fun t hm => ht t (List.all_eq_true.1 h.gap t hm), h.looseLead, h.looseGap⟩

theorem mem_dotted {path : List Key} (h : ∀ k ∈ path, k.Legible) {t : Token}
    (ht : t ∈ dotted path) : t.isLabel = true ∨ t.isBlank = true ∨ t = .char '.' := by
  induction path with
  | nil => cases ht
  | cons k path ih =>
    rw [List.forall_mem_cons] at h
    have hk : t ∈ k.spelling → t.isLabel = true := h.1.isLabel t
    cases path with
    | nil => exact Or.inl (hk ht)
    | cons l path =>
      have hb : ∀ {g : List Token}, g.all Token.isBlank = true → t ∈ g → t.isBlank = true :=
        fun hg hm => List.all_eq_true.1 hg t hm
      rw [dotted_cons] at ht
      simp only [List.mem_append, List.mem_cons] at ht
      rcases ht with (ht | ht) | ht | ht | ht
      · exact Or.inl (hk ht)
      · exact Or.inr (Or.inl (hb h.1.after ht))
      · exact Or.inr (Or.inr ht)
      · exact Or.inr (Or.inl (hb (h.2 l List.mem_cons_self).before ht))
      · exact ih h.2 ht

theorem pathTokens_of_getLast? {path : List Key} {last : Key} (h : path.getLast? = some last) :
    pathTokens path = last.lead ++ dotted path ++ last.gap := by
  rw [pathTokens, h]

/-- What a path is written with. -/
theorem mem_pathTokens {path : List Key} {last : Key} (hp : ∀ k ∈ path, k.Legible)
    (hlast : path.getLast? = some last) (hf : last.Fringed Token.isGap Token.isGap) {t : Token}
    (ht : t ∈ pathTokens path) : t.isLabel = true ∨ t.isGap = true ∨ t = .char '.' := by
  rw [pathTokens_of_getLast? hlast, List.mem_append, List.mem_append] at ht
  rcases ht with (ht | ht) | ht
  · exact Or.inr (Or.inl (List.all_eq_true.1 hf.lead t ht))
  · exact (mem_dotted hp ht).imp_right (Or.imp_left Token.isGap_of_isBlank)
  · exact Or.inr (Or.inl (List.all_eq_true.1 hf.gap t ht))

/-- A path is clear in front of a character that ends it. -/
theorem clear_pathTokens {path : List Key} {last : Key} {leading trailing : Token → Bool}
    (hp : ∀ k ∈ path, k.Legible) (hlast : path.getLast? = some last)
    (hf : last.Fringed leading trailing) (hq : ∀ s m v, trailing (.quoted s m v) = false)
    {c : Char} {ts : List Token} (h : Clear (.char c :: ts)) :
    Clear (pathTokens path ++ .char c :: ts) := by
  rw [pathTokens_of_getLast? hlast, List.append_assoc, List.append_assoc]
  exact hf.looseLead _ (sealed_dotted hp _ (calm_append hq hf.gap (calm_char c ts))
    (hf.looseGap _ h))

/-! ### Reading what was written -/

/-- A row that ends with something else than a kind is cut off in front of that kind. -/
theorem splitEnd_append_of_all {kind : Token → Bool} {a b : List Token}
    (ha : ∀ t, a.getLast? = some t → kind t = false) (hb : b.all kind = true) :
    splitEnd kind (a ++ b) = (a, b) := by
  have hb' : b.reverse.all kind = true := by rwa [List.all_reverse]
  obtain ⟨htake, hdrop⟩ := span_append hb' (b := a.reverse) fun t ht => by
    rw [List.head?_reverse] at ht
    exact ha t ht
  simp only [splitEnd, List.reverse_append, htake, hdrop, List.reverse_reverse]

theorem head?_dotted {k : Key} (h : k.Legible) (path : List Key) {t : Token}
    (ht : (dotted (k :: path)).head? = some t) : t.isLabel = true := by
  have hs : (dotted (k :: path)).head? = k.spelling.head? := by
    cases path with
    | nil => rfl
    | cons l path =>
      rw [dotted_cons, List.append_assoc, List.head?_append_of_ne_nil _ h.spelling_ne_nil]
  rw [hs] at ht
  exact h.isLabel t (List.mem_of_head? ht)

theorem getLast?_dotted {path : List Key} (h : ∀ k ∈ path, k.Legible) {t : Token}
    (ht : (dotted path).getLast? = some t) : t.isLabel = true := by
  induction path with
  | nil => cases ht
  | cons k path ih =>
    cases path with
    | nil => exact (h k List.mem_cons_self).isLabel t (List.mem_of_getLast? ht)
    | cons l path =>
      refine ih (fun m hm => h m (List.mem_cons_of_mem _ hm)) ?_
      have hne := dotted_ne_nil (h l (List.mem_cons_of_mem _ List.mem_cons_self)) path
      rw [dotted_cons, List.append_cons, ← List.append_assoc,
        List.getLast?_append_of_ne_nil _ hne] at ht
      exact ht

theorem readPart_append {k : Key} (hk : k.Legible) {b a : List Token}
    (hb : b.all Token.isBlank = true) (ha : a.all Token.isBlank = true) :
    ∃ part, readPart (b ++ k.spelling ++ a) = some part ∧ part.name = k.name := by
  have hlabel : ∀ t ∈ k.spelling, t.isBlank = false :=
    fun t ht => Token.isBlank_of_isLabel (hk.isLabel t ht)
  have hhead : ∀ t, (k.spelling ++ a).head? = some t → t.isBlank = false := by
    intro t ht
    rw [List.head?_append_of_ne_nil _ hk.spelling_ne_nil] at ht
    exact hlabel t (List.mem_of_head? ht)
  obtain ⟨-, hdrop⟩ := span_append hb hhead
  have hend := splitEnd_append_of_all (a := k.spelling)
    (fun t ht => hlabel t (List.mem_of_getLast? ht)) ha
  refine ⟨⟨k.name, k.spelling, (b ++ k.spelling ++ a).takeWhile Token.isBlank, a, [],
    [.char ' ']⟩, ?_, rfl⟩
  simp only [readPart, List.append_assoc, hdrop, hend, hk.named]
  rfl

/-- No dot stands in labels and blanks. -/
theorem dot_not_mem {l : List Token} (h : ∀ t ∈ l, t.isLabel = true ∨ t.isBlank = true) :
    Token.char '.' ∉ l := by
  intro hm
  rcases h _ hm with h | h <;> exact absurd h (by decide)

theorem mapM_readPart_dotted (k : Key) (path : List Key) (h : ∀ l ∈ k :: path, l.Legible)
    {b : List Token} (hb : b.all Token.isBlank = true) :
    ∃ parts, (Text.splitOn (.char '.') (b ++ dotted (k :: path))).mapM readPart = some parts ∧
      parts.map Key.name = (k :: path).map Key.name := by
  induction path generalizing k b with
  | nil =>
    have hk := h k List.mem_cons_self
    obtain ⟨part, hpart, hname⟩ := readPart_append hk hb (a := []) rfl
    rw [List.append_nil] at hpart
    have hdot : Token.char '.' ∉ b ++ k.spelling := dot_not_mem fun t ht =>
      (List.mem_append.1 ht).elim (fun ht => Or.inr (List.all_eq_true.1 hb t ht))
        (fun ht => Or.inl (hk.isLabel t ht))
    refine ⟨[part], ?_, by simp [hname]⟩
    rw [dotted, Text.splitOn_of_not_mem hdot]
    simp [hpart]
  | cons l path ih =>
    have hk := h k List.mem_cons_self
    have hl := h l (List.mem_cons_of_mem _ List.mem_cons_self)
    obtain ⟨part, hpart, hname⟩ := readPart_append hk hb hk.after
    obtain ⟨parts, hparts, hnames⟩ := ih l (fun m hm => h m (List.mem_cons_of_mem _ hm)) hl.before
    have hdot : Token.char '.' ∉ b ++ k.spelling ++ k.after := dot_not_mem fun t ht => by
      rcases List.mem_append.1 ht with ht | ht
      · exact (List.mem_append.1 ht).elim (fun ht => Or.inr (List.all_eq_true.1 hb t ht))
          (fun ht => Or.inl (hk.isLabel t ht))
      · exact Or.inr (List.all_eq_true.1 hk.after t ht)
    refine ⟨part :: parts, ?_, by simp [hname, hnames]⟩
    rw [dotted_cons, ← List.append_assoc, ← List.append_assoc, Text.splitOn_append_cons,
      Text.splitOn_of_not_mem hdot, List.singleton_append, List.mapM_cons, hpart, hparts]
    rfl

theorem map_name_withMargins (lead gap : List Token) (path : List Key) :
    (withMargins lead gap path).map Key.name = path.map Key.name := by
  fun_induction withMargins lead gap path with
  | case1 => rfl
  | case2 => rfl
  | case3 k path hp ih => rw [List.map_cons, ih, List.map_cons]

/-- A path of legible keys is read again with the same names. -/
theorem readPath_pathTokens {margin : Token → Bool} (hm : ∀ t, t.isLabel = true → margin t = false)
    {path : List Key} {last : Key} (hlen : path.length ≤ maxParts) (hp : ∀ k ∈ path, k.Legible)
    (hlast : path.getLast? = some last) (hf : last.Fringed margin margin) :
    ∃ again, readPath margin (pathTokens path) = some again ∧
      again.map Key.name = path.map Key.name := by
  cases path with
  | nil => cases hlast
  | cons k path =>
    have hk := hp k List.mem_cons_self
    have hhead : ∀ t, (dotted (k :: path) ++ last.gap).head? = some t → margin t = false := by
      intro t ht
      rw [List.head?_append_of_ne_nil _ (dotted_ne_nil hk path)] at ht
      exact hm t (head?_dotted hk path ht)
    obtain ⟨htake, hdrop⟩ := span_append hf.lead hhead
    have hend := splitEnd_append_of_all (a := dotted (k :: path))
      (fun t ht => hm t (getLast?_dotted hp ht)) hf.gap
    obtain ⟨parts, hparts, hnames⟩ := mapM_readPart_dotted k path hp (b := []) rfl
    rw [List.nil_append] at hparts
    have hlen' : ¬maxParts < parts.length := by
      have := congrArg List.length hnames
      simp only [List.length_map] at this
      omega
    refine ⟨withMargins last.lead last.gap parts, ?_, by rw [map_name_withMargins, hnames]⟩
    rw [pathTokens_of_getLast? hlast, List.append_assoc]
    simp only [readPath, htake, hdrop, hend, hparts, Option.bind_eq_bind, Option.bind_some,
      if_neg hlen', Option.pure_def]

/-! ### What reading gives -/

theorem mem_joinWith {α : Type} {sep : List α} {parts : List (List α)} {x : α}
    (h : x ∈ Text.joinWith sep parts) : x ∈ sep ∨ ∃ part ∈ parts, x ∈ part := by
  induction parts with
  | nil => cases h
  | cons part parts ih =>
    cases parts with
    | nil => exact Or.inr ⟨part, List.mem_cons_self, h⟩
    | cons next more =>
      rcases List.mem_append.1 h with h | h
      · exact (List.mem_append.1 h).elim (fun h => Or.inr ⟨part, List.mem_cons_self, h⟩) Or.inl
      · exact (ih h).imp_right fun ⟨p, hp, hx⟩ => ⟨p, List.mem_cons_of_mem _ hp, hx⟩

/-- What stands in a part stands in the whole. -/
theorem mem_of_mem_splitOn {sep : Token} {ts part : List Token}
    (h : part ∈ Text.splitOn sep ts) {t : Token} (ht : t ∈ part) : t ∈ ts := by
  induction ts generalizing part with
  | nil =>
    rw [Text.splitOn, List.mem_singleton] at h
    rw [h] at ht
    cases ht
  | cons u us ih =>
    rw [Text.splitOn] at h
    split at h
    · rcases List.mem_cons.1 h with rfl | h
      · cases ht
      · exact List.mem_cons_of_mem _ (ih h ht)
    · rcases e : Text.splitOn sep us with - | ⟨first, parts⟩
      · exact absurd e (Text.splitOn_ne_nil sep us)
      · rw [e] at h ih
        rcases List.mem_cons.1 h with rfl | h
        · rcases List.mem_cons.1 ht with rfl | ht
          · exact List.mem_cons_self
          · exact List.mem_cons_of_mem _ (ih List.mem_cons_self ht)
        · exact List.mem_cons_of_mem _ (ih (List.mem_cons_of_mem _ h) ht)

theorem all_of_splitEnd (kind : Token → Bool) (ts : List Token) :
    (splitEnd kind ts).2.all kind = true := by
  rw [splitEnd, List.all_reverse]
  exact List.all_takeWhile

theorem readPart_eq_some {ts : List Token} {k : Key} (h : readPart ts = some k) :
    ts = k.before ++ k.spelling ++ k.after ∧ nameOf? k.spelling = some k.name ∧
      k.before.all Token.isBlank = true ∧ k.after.all Token.isBlank = true := by
  refine ⟨(tokens_readPart h).symm, ?_⟩
  simp only [readPart, Option.bind_eq_bind, Option.bind_eq_some_iff, Option.pure_def,
    Option.some.injEq] at h
  obtain ⟨name, hname, rfl⟩ := h
  exact ⟨hname, List.all_takeWhile, all_of_splitEnd _ _⟩

/-- What reading a path says of it: its margins, and its keys in between. -/
structure PathIn (margin : Token → Bool) (label : List Token) (path : List Key) : Prop where
  length_le : path.length ≤ maxParts
  legible : (∀ t ∈ label, t.Readable) → ∀ k ∈ path, k.Legible
  fringe : ∃ last inner, path.getLast? = some last ∧ label = last.lead ++ inner ++ last.gap ∧
    last.lead.all margin = true ∧ last.gap.all margin = true ∧
    inner ≠ [] ∧ (∀ t, inner.head? = some t → margin t = false) ∧
    ∀ t ∈ inner, t.isLabel = true ∨ t.isBlank = true ∨ t = .char '.'

theorem withMargins_append (lead gap : List Token) (path : List Key) (k : Key) :
    withMargins lead gap (path ++ [k]) = path ++ [{ k with lead, gap }] := by
  induction path with
  | nil => rfl
  | cons l path ih =>
    cases path with
    | nil => rfl
    | cons m path =>
      rw [List.cons_append, List.cons_append, withMargins, ← List.cons_append, ih]
      · rfl
      · simp

/-- The keys that were read from the parts between the dots have their tokens there. -/
theorem keys_of_readParts {inner : List Token} {keys : List Key}
    (h : List.Forall₂ (readPart · = some ·) (Text.splitOn (.char '.') inner) keys) :
    ∀ k ∈ keys, nameOf? k.spelling = some k.name ∧ k.before.all Token.isBlank = true ∧
      k.after.all Token.isBlank = true ∧ ∀ t ∈ k.spelling, t ∈ inner := by
  intro k hk
  obtain ⟨part, hp, hk⟩ := Text.exists_of_mem_right h k hk
  obtain ⟨rfl, hname, hb, ha⟩ := readPart_eq_some hk
  exact ⟨hname, hb, ha, fun t ht => mem_of_mem_splitOn hp (by simp [ht])⟩

/-- Where keys were read from all parts there are only labels, blanks and dots. -/
theorem kinds_of_readParts {inner : List Token} {keys : List Key}
    (h : List.Forall₂ (readPart · = some ·) (Text.splitOn (.char '.') inner) keys) :
    ∀ t ∈ inner, t.isLabel = true ∨ t.isBlank = true ∨ t = .char '.' := by
  intro t ht
  rw [← Text.joinWith_splitOn (.char '.') inner] at ht
  rcases mem_joinWith ht with ht | ⟨part, hp, ht⟩
  · exact Or.inr (Or.inr (by simpa using ht))
  · obtain ⟨l, hl, hpart⟩ := Text.exists_of_mem_left h part hp
    obtain ⟨rfl, hname, hb, ha⟩ := readPart_eq_some hpart
    simp only [List.mem_append] at ht
    rcases ht with (ht | ht) | ht
    · exact Or.inr (Or.inl (List.all_eq_true.1 hb t ht))
    · exact Or.inl ((isLabel_of_nameOf? hname).2 t ht)
    · exact Or.inr (Or.inl (List.all_eq_true.1 ha t ht))

/-- A path that was read is made of its margins and of legible keys. -/
theorem pathIn_of_readPath {margin : Token → Bool} {label : List Token} {path : List Key}
    (h : readPath margin label = some path) : PathIn margin label path := by
  simp only [readPath, Option.bind_eq_bind, Option.bind_eq_some_iff, Option.pure_def] at h
  obtain ⟨keys, hkeys, h⟩ := h
  generalize hinner : (splitEnd margin (label.dropWhile margin)).1 = inner at hkeys
  generalize hgap : (splitEnd margin (label.dropWhile margin)).2 = gap at h
  generalize hlead : label.takeWhile margin = lead at h
  have hsplit : inner ++ gap = label.dropWhile margin := by
    rw [← hinner, ← hgap, splitEnd_append]
  have hlabel : label = lead ++ inner ++ gap := by
    rw [List.append_assoc, hsplit, ← hlead, List.takeWhile_append_dropWhile]
  split at h
  · cases h
  · next hlen =>
    cases h
    have hall := Text.mapM_eq_some_iff.1 hkeys
    have hread := keys_of_readParts hall
    have hne : keys ≠ [] := by
      rintro rfl
      exact absurd (List.forall₂_nil_right_iff.1 hall) (Text.splitOn_ne_nil _ _)
    -- the margins go to the last key
    obtain ⟨init, k, rfl⟩ := (List.eq_nil_or_concat' keys).resolve_left hne
    have hk := hread k (by simp)
    have hinner_ne : inner ≠ [] := by
      rintro rfl
      exact (isLabel_of_nameOf? hk.1).1
        (List.eq_nil_iff_forall_not_mem.2 fun t ht => by simpa using hk.2.2.2 t ht)
    rw [withMargins_append]
    refine ⟨by simpa using hlen, fun hr l hl => ?_, { k with lead, gap }, inner, by simp,
      hlabel, hlead ▸ List.all_takeWhile, hgap ▸ all_of_splitEnd _ _, hinner_ne, ?_,
      kinds_of_readParts hall⟩
    · have hmem : ∀ t ∈ inner, t.Readable := fun t ht => hr t (by simp [hlabel, ht])
      rcases List.mem_append.1 hl with hl | hl
      · have hl := hread l (by simp [hl])
        exact ⟨hl.1, fun t ht => hmem t (hl.2.2.2 t ht), hl.2.1, hl.2.2.1⟩
      · rw [List.mem_singleton.1 hl]
        exact ⟨hk.1, fun t ht => hmem t (hk.2.2.2 t ht), hk.2.1, hk.2.2.1⟩
    · intro t ht
      have := List.head?_dropWhile_not margin label
      rw [← hsplit, List.head?_append_of_ne_nil _ hinner_ne, ht] at this
      exact this

/-- Between gaps, the margins of a path that was read in front of something else than a line end
may stand before anything. -/
theorem PathIn.fringed {margin : Token → Bool} {label : List Token} {path : List Key}
    (h : PathIn margin label path) (hg : ∀ t, margin t = true → t.isGap = true) {t : Token}
    {ts : List Token} (hc : Clear (label ++ t :: ts)) (ht : t ≠ .newline) :
    ∃ last, path.getLast? = some last ∧ last.Fringed margin margin := by
  obtain ⟨last, inner, hlast, rfl, hlead, hgap, hne, -, hinner⟩ := h.fringe
  have hall : ∀ {l : List Token}, l.all margin = true → l.all Token.isGap = true := fun hl =>
    List.all_eq_true.2 fun t ht => hg t (List.all_eq_true.1 hl t ht)
  refine ⟨last, hlast, hlead, hgap, ?_, ?_⟩
  · cases inner with
    | nil => exact absurd rfl hne
    | cons u inner =>
      rw [List.append_assoc, List.append_assoc, List.cons_append] at hc
      refine hc.loose (hall hlead) ?_
      rintro rfl
      rcases hinner _ List.mem_cons_self with h | h | h <;> exact absurd h (by decide)
  · rw [List.append_assoc] at hc
    exact hc.right.loose (hall hgap) ht

end LintHost.Toml
