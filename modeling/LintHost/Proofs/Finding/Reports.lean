/-
LintHost/Proofs/Finding/Reports.lean

Decoding a report undoes writing it.  A report may be written in any way that JSON
allows, with blanks of any kind around it: as a list of records, or as an object
whose values are records and are taken in the bytewise order of their names.  One
spoiled record spoils the report.

The only texts that are refused without such a record are those beyond the limits
of the reader: arrays and objects nested too deep, and numbers that become infinite
when they are read in rounded steps, even if they are a member that no finding has.

Main result: `decode_of_rendering`.
-/
import LintHost.Proofs.Finding.Records
import LintHost.Proofs.Json.Reading
import LintHost.Proofs.Text.Bytewise
import LintHost.Proofs.Text.Pairing

namespace LintHost.Report

open Json

/-! ### The order of names -/

theorem mem_of_mem_insertNamed {name : String} {f : Finding} {l : List (String × Finding)}
    {m : String × Finding} (h : m ∈ insertNamed name f l) : m = (name, f) ∨ m ∈ l := by
  induction l with
  | nil => exact .inl (List.mem_singleton.1 h)
  | cons n l ih =>
    unfold insertNamed at h
    split at h
    · rcases List.mem_cons.1 h with rfl | h
      · exact .inr List.mem_cons_self
      · exact (ih h).imp_right (List.mem_cons_of_mem _)
    · split at h
      · exact (List.mem_cons.1 h).imp_right (List.mem_cons_of_mem _)
      · exact List.mem_cons.1 h

theorem pairwise_insertNamed (name : String) (f : Finding) {l : List (String × Finding)}
    (h : l.Pairwise fun a b => a.1 < b.1) :
    (insertNamed name f l).Pairwise fun a b => a.1 < b.1 := by
  induction l with
  | nil => exact List.pairwise_singleton _ _
  | cons n l ih =>
    obtain ⟨hn, hl⟩ := List.pairwise_cons.1 h
    unfold insertNamed
    split
    · next hlt =>
      refine List.pairwise_cons.2 ⟨fun m hm => ?_, ih hl⟩
      rcases mem_of_mem_insertNamed hm with rfl | hm
      · exact hlt
      · exact hn m hm
    · next hge =>
      split
      · next heq => exact List.pairwise_cons.2 ⟨fun m hm => heq ▸ hn m hm, hl⟩
      · next hne =>
        have hlt : name < n.1 := by
          refine String.not_le.1 fun hle => hne ?_
          exact String.le_antisymm hle (String.not_lt.1 hge)
        refine List.pairwise_cons.2 ⟨fun m hm => ?_, h⟩
        rcases List.mem_cons.1 hm with rfl | hm
        · exact hlt
        · exact String.lt_trans hlt (hn m hm)

theorem perm_insertNamed {name : String} (f : Finding) {l : List (String × Finding)}
    (h : ∀ m ∈ l, m.1 ≠ name) : (insertNamed name f l).Perm ((name, f) :: l) := by
  induction l with
  | nil => exact .refl _
  | cons n l ih =>
    obtain ⟨hn, hl⟩ := List.forall_mem_cons.1 h
    unfold insertNamed
    split
    · exact ((ih hl).cons n).trans (.swap _ _ _)
    · exact .refl _

/-- Findings under distinct names are put in the order of the names. -/
theorem exists_byName {named : List (String × Finding)} (h : (named.map (·.1)).Nodup) :
    ∃ sorted : List (String × Finding), sorted.Perm named ∧
      sorted.Pairwise (fun a b => Text.encode a.1.toList < Text.encode b.1.toList) ∧
      byName named = sorted.map (·.2) := by
  have run (acc : List (String × Finding)) (hacc : acc.Pairwise fun a b => a.1 < b.1)
      (hnew : ∀ m ∈ acc, m.1 ∉ named.map (·.1)) :
      let sorted := named.foldl (fun sorted m => insertNamed m.1 m.2 sorted) acc
      sorted.Perm (acc ++ named) ∧ sorted.Pairwise fun a b => a.1 < b.1 := by
    induction named generalizing acc with
    | nil => exact ⟨.of_eq (List.append_nil acc).symm, hacc⟩
    | cons n named ih =>
      obtain ⟨hn, hrest⟩ := List.nodup_cons.1 h
      have hfresh : ∀ m ∈ acc, m.1 ≠ n.1 := fun m hm he =>
        hnew m hm (he ▸ List.mem_cons_self)
      obtain ⟨hperm, hsorted⟩ := ih hrest (insertNamed n.1 n.2 acc) (pairwise_insertNamed _ _ hacc)
        fun m hm => by
          rcases mem_of_mem_insertNamed hm with rfl | hm
          · exact hn
          · exact fun hmem => hnew m hm (List.mem_cons_of_mem _ hmem)
      refine ⟨hperm.trans ?_, hsorted⟩
      exact ((perm_insertNamed n.2 hfresh).append_right named).trans List.perm_middle.symm
  obtain ⟨hperm, hsorted⟩ := run [] .nil (by simp)
  exact ⟨_, hperm, hsorted.imp Text.encode_lt_encode, rfl⟩

/-! ### The value of a report -/

/-- A name and the finding that its record renders. -/
def RendersNamed (n : String × Finding) (m : String × Value) : Prop :=
  m.1 = n.1 ∧ Renders n.2 m.2

/-- A record that is an object with something wrong with its members. -/
def SpoiledRecord (v : Value) : Prop :=
  ∃ members, v = .object members ∧ SpoiledFinding members

theorem finding?_of_spoiled {v : Value} (h : SpoiledRecord v) : finding? v = none := by
  obtain ⟨members, rfl, h⟩ := h
  exact (finding?_eq_none_iff members).2 h

theorem findings?_array {items : List Value} {findings : List Finding}
    (h : List.Forall₂ Renders findings items) : findings? (.array items) = some findings :=
  Text.mapM_eq_some_iff.2 (List.Forall₂.flip (h.imp fun _ _ hr => finding?_of_renders hr))

theorem findings?_object {members : List (String × Value)} {named : List (String × Finding)}
    (h : List.Forall₂ RendersNamed named members) :
    findings? (.object members) = some (byName named) := by
  have hread : members.mapM (fun m => do return (m.1, ← finding? m.2)) = some named := by
    refine Text.mapM_eq_some_iff.2 (List.Forall₂.flip (h.imp fun n m hr => ?_))
    simp [flip, finding?_of_renders hr.2, hr.1]
  rw [findings?, hread]
  rfl

/-- A list on which a partial function has no answer somewhere has none as a whole. -/
theorem mapM_eq_none {α β : Type} {f : α → Option β} {l : List α} {a : α} (ha : a ∈ l)
    (hf : f a = none) : l.mapM f = none := by
  cases hm : l.mapM f with
  | none => rfl
  | some r =>
    obtain ⟨b, -, hb⟩ := Text.exists_of_mem_left (Text.mapM_eq_some_iff.1 hm) a ha
    rw [hf] at hb
    cases hb

theorem findings?_array_of_spoiled {items : List Value} {record : Value} (hm : record ∈ items)
    (h : SpoiledRecord record) : findings? (.array items) = none :=
  mapM_eq_none hm (finding?_of_spoiled h)

theorem findings?_object_of_spoiled {members : List (String × Value)} {m : String × Value}
    (hm : m ∈ members) (h : SpoiledRecord m.2) : findings? (.object members) = none := by
  have hread : members.mapM (fun m => do return (m.1, ← finding? m.2)) = none :=
    mapM_eq_none hm (by simp [finding?_of_spoiled h])
  rw [findings?, hread]
  rfl

/-! ### The text of a report -/

theorem trim_append {before after s : List Char} {c d : Char}
    (hb : ∀ x ∈ before, Text.isBlank x = true) (ha : ∀ x ∈ after, Text.isBlank x = true)
    (hc : Text.isBlank c = false) (hd : Text.isBlank d = false) :
    Text.trim (before ++ (c :: (s ++ [d])) ++ after) = c :: (s ++ [d]) := by
  have hleft : Text.trimLeft (before ++ (c :: (s ++ [d])) ++ after)
      = c :: (s ++ [d]) ++ after := by
    rw [Text.trimLeft, List.append_assoc, List.dropWhile_append_of_pos hb, List.cons_append,
      List.dropWhile_cons_of_neg (by simp [hc])]
  rw [Text.trim, hleft, Text.trimRight, List.reverse_append,
    List.dropWhile_append_of_pos (by simpa using ha), ← List.cons_append, List.reverse_append,
    List.reverse_singleton, List.singleton_append, List.dropWhile_cons_of_neg (by simp [hd])]
  simp

/-- What is decoded from a text that spells a list or an object: its findings if it is within the
reader's limits. -/
theorem decode_of_spells {v : Value} {s before after : List Char} (hs : Spells v s)
    (hv : (∃ items, v = .array items) ∨ ∃ members, v = .object members)
    (hb : ∀ c ∈ before, Text.isBlank c = true) (ha : ∀ c ∈ after, Text.isBlank c = true) :
    decode (before ++ s ++ after) =
      if v.isWithin maxDepth then (findings? v).elim (.error .shape) .ok
      else .error (.text .malformed) := by
  obtain ⟨c, t, d, rfl, hc, hd⟩ : ∃ c t d, s = c :: (t ++ [d]) ∧ Text.isBlank c = false ∧
      Text.isBlank d = false := by
    rcases hv with ⟨items, rfl⟩ | ⟨members, rfl⟩
    · cases hs with
      | array => exact ⟨'[', _, ']', rfl, by decide, by decide⟩
    · cases hs with
      | object => exact ⟨'{', _, '}', rfl, by decide, by decide⟩
  unfold decode
  rw [trim_append hb ha hc hd]
  simp only [readFirst_of_spells hs]
  cases v.isWithin maxDepth with
  | false => rfl
  | true => cases hf : findings? v <;> simp [hf, skipSpace]

/-! ### A report with a member that no finding has -/

/-- A member without spaces and escapes. -/
def plainMember (name : String) (s : List Char) : List Char :=
  '"' :: (name.toList ++ '"' :: ':' :: s)

/-- The number one in plain digits. -/
def one : Value := .number { whole := ['1'] }

/-- A finding without filename and code. -/
def bare : Finding where
  message := ""
  start := ⟨1, 1⟩
  stop := ⟨1, 1⟩

/-- A record of the bare finding with a member that is not known. -/
def bareRecord (extra : Value) : Value :=
  .object [("message", .string ""), ("location", .array [one, one]),
    ("end_location", .array [one, one]), ("extra", extra)]

/-- The text of this record whose unknown member is spelled by another. -/
def bareText (extra : List Char) : List Char :=
  let mark := "[1,1]".toList
  let members := plainMember "message" ['"', '"'] ++ ',' :: (plainMember "location" mark ++
    ',' :: (plainMember "end_location" mark ++ ',' :: plainMember "extra" extra))
  '{' :: (members ++ ['}'])

/-- A report of the bare finding. -/
def bareReport (extra : List Char) : List Char :=
  '[' :: (bareText extra ++ [']'])

/-- Characters that stand for themselves, before others. -/
theorem quotes_append {cs more s : List Char}
    (h : ∀ c ∈ cs, 0x20 ≤ c.toNat ∧ c ≠ '"' ∧ c ≠ '\\') (hmore : Quotes more s) :
    Quotes (cs ++ more) (cs ++ s) := by
  induction cs with
  | nil => exact hmore
  | cons c cs ih =>
    obtain ⟨⟨hc, hq, hb⟩, hcs⟩ := List.forall_mem_cons.1 h
    exact .plain hc hq hb (ih hcs)

theorem quotes_plain {cs : List Char} (h : ∀ c ∈ cs, 0x20 ≤ c.toNat ∧ c ≠ '"' ∧ c ≠ '\\') :
    Quotes cs (cs ++ ['"']) := by
  simpa using quotes_append h .close

theorem labelled_plain {R : Value → List Char → Prop} {name : String} {v : Value} {s : List Char}
    (hn : ∀ c ∈ name.toList, 0x20 ≤ c.toNat ∧ c ≠ '"' ∧ c ≠ '\\') (h : R v s) :
    Labelled R (name, v) (plainMember name s) := by
  have hm := Labelled.mk (quotes_plain hn) .nil .nil h
  rw [String.ofList_toList] at hm
  simpa [plainMember] using hm

theorem spells_digit {c : Char} (hc : c.isDigit = true) (hzero : c ≠ '0') :
    Spells (.number { whole := [c] }) [c] := by
  have hw : Whole [c] := .inr ⟨⟨by simp, by simpa using hc⟩, by simpa using hzero⟩
  have hs : SpellsUnsigned { whole := [c] } ([c] ++ ([] ++ [])) := .mk hw .none .none
  exact .unsigned rfl hs

theorem spells_one : Spells one ['1'] :=
  spells_digit rfl (by decide)

theorem spells_mark : Spells (.array [one, one]) "[1,1]".toList :=
  .array (.row (.cons .nil spells_one .nil (.last .nil spells_one .nil)))

theorem spells_bareRecord {extra : Value} {s : List Char} (h : Spells extra s) :
    Spells (bareRecord extra) (bareText s) := by
  have hmessage : Labelled Spells ("message", .string "") (plainMember "message" ['"', '"']) :=
    labelled_plain (by simp) (.string .close)
  have hlocation : Labelled Spells ("location", .array [one, one]) (plainMember "location" _) :=
    labelled_plain (by simp) spells_mark
  have hend : Labelled Spells ("end_location", .array [one, one]) (plainMember "end_location" _) :=
    labelled_plain (by simp) spells_mark
  have hextra : Labelled Spells ("extra", extra) (plainMember "extra" s) :=
    labelled_plain (by simp) h
  have hrow := Row.cons .nil hmessage .nil
    (.cons .nil hlocation .nil (.cons .nil hend .nil (.last .nil hextra .nil)))
  simpa [bareText, bareRecord] using Spells.object (.row hrow)

theorem spells_bareReport {extra : Value} {s : List Char} (h : Spells extra s) :
    Spells (.array [bareRecord extra]) (bareReport s) := by
  have hreport := Spells.array (.row (.last .nil (spells_bareRecord h) .nil))
  simpa [bareReport] using hreport

theorem rendersWord_one : RendersWord 1 one := ⟨['1'], rfl, rfl⟩

theorem renders_bareRecord (extra : Value) : Renders bare (bareRecord extra) := by
  have hmark : RendersMark ⟨1, 1⟩ (.array [one, one]) := .list rendersWord_one rendersWord_one
  refine .mk .absent .absent hmark hmark ⟨[("extra", extra)], .refl _, fun m hm => ?_⟩
  obtain rfl := List.mem_singleton.1 hm
  show "extra" ∉ findingNames
  decide

theorem isWithin_bareReport (extra : Value) :
    (Value.array [bareRecord extra]).isWithin maxDepth = extra.isWithin 125 := by
  have hone : (Numeral.mk false ['1'] [] none).staysFinite = true := by decide +kernel
  simp [maxDepth, bareRecord, one, Value.isWithin, hone]

/-! ### Decoding -/

/-- **Decoding a report undoes writing it.**  Within the limits of the reader, a list of records
is decoded as the findings that they render, in order, and an object of records under distinct
names as its findings in the bytewise order of the names.  Beyond the limits a report is
malformed.  One spoiled record is an error in any case. -/
theorem decode_of_rendering {v : Value} {s before after : List Char} (hs : Spells v s)
    (hb : ∀ c ∈ before, Text.isBlank c = true) (ha : ∀ c ∈ after, Text.isBlank c = true) :
    let decoded := decode (before ++ s ++ after)
    let fits := v.isWithin maxDepth = true
    (∀ items findings, v = .array items → List.Forall₂ Renders findings items →
      (fits → decoded = .ok findings) ∧ (¬fits → decoded = .error (.text .malformed))) ∧
    (∀ members named, v = .object members → List.Forall₂ RendersNamed named members →
      (named.map (·.1)).Nodup →
      (fits → ∃ sorted : List (String × Finding), sorted.Perm named ∧
        sorted.Pairwise (fun a b => Text.encode a.1.toList < Text.encode b.1.toList) ∧
        decoded = .ok (sorted.map (·.2))) ∧
      (¬fits → decoded = .error (.text .malformed))) ∧
    (∀ items, v = .array items → (∃ record ∈ items, SpoiledRecord record) →
      ∃ fault, decoded = .error fault) ∧
    ∀ members, v = .object members → (∃ m ∈ members, SpoiledRecord m.2) →
      ∃ fault, decoded = .error fault := by
  intro decoded fits
  have refused (hnone : findings? v = none)
      (hv : (∃ items, v = .array items) ∨ ∃ members, v = .object members) :
      ∃ fault, decoded = .error fault := by
    have hdecoded : decoded = _ := decode_of_spells hs hv hb ha
    rw [hnone] at hdecoded
    cases hfits : v.isWithin maxDepth with
    | false => exact ⟨_, hdecoded.trans (by rw [hfits]; rfl)⟩
    | true => exact ⟨_, hdecoded.trans (by rw [hfits]; rfl)⟩
  refine ⟨?_, ?_, ?_, ?_⟩
  · rintro items findings rfl h
    have hdecoded : decoded = _ := decode_of_spells hs (.inl ⟨items, rfl⟩) hb ha
    rw [findings?_array h] at hdecoded
    exact ⟨fun hfits => hdecoded.trans (if_pos hfits), fun hfits => hdecoded.trans (if_neg hfits)⟩
  · rintro members named rfl h hnames
    have hdecoded : decoded = _ := decode_of_spells hs (.inr ⟨members, rfl⟩) hb ha
    rw [findings?_object h] at hdecoded
    obtain ⟨sorted, hperm, hsorted, hvalues⟩ := exists_byName hnames
    refine ⟨fun hfits => ⟨sorted, hperm, hsorted, ?_⟩, fun hfits => hdecoded.trans (if_neg hfits)⟩
    rw [← hvalues]
    exact hdecoded.trans (if_pos hfits)
  · rintro items rfl ⟨record, hm, h⟩
    exact refused (findings?_array_of_spoiled hm h) (.inl ⟨items, rfl⟩)
  · rintro members rfl ⟨m, hm, h⟩
    exact refused (findings?_object_of_spoiled hm h) (.inr ⟨members, rfl⟩)

/-- A finding in a file, with a message that is not ASCII. -/
def accented : Finding where
  filename := some "/ws/a.py"
  message := "café"
  start := ⟨2, 1⟩
  stop := ⟨2, 2⟩

/-- A record of it that names the members in another order, the mark's own as well. -/
def accentedRecord : Value :=
  let two : Value := .number { whole := ['2'] }
  .object [("end_location", .array [two, two]), ("filename", .string "/ws/a.py"),
    ("message", .string "café"), ("location", .object [("column", one), ("row", two)])]

/-- Its text, with the message escaped. -/
def accentedText : List Char :=
  "\x7b\"end_location\":[2,2],\"filename\":\"/ws/a.py\",\"message\":\"caf\\u00e9\",".toList
    ++ "\"location\":\x7b\"column\":1,\"row\":2\x7d\x7d".toList

theorem spells_accentedRecord : Spells accentedRecord accentedText := by
  have htwo := spells_digit (c := '2') rfl (by decide)
  have hend : Labelled Spells ("end_location", _) (plainMember "end_location" "[2,2]".toList) :=
    labelled_plain (by simp) (.array (.row (.cons .nil htwo .nil (.last .nil htwo .nil))))
  have hname : Quotes "/ws/a.py".toList ("/ws/a.py".toList ++ ['"']) := quotes_plain (by simp)
  have hfile : Labelled Spells ("filename", .string "/ws/a.py") _ :=
    labelled_plain (by simp) (.string hname)
  -- the last character of the message is the one that is escaped
  have hescape : SpellsCode 'é'.toNat "00e9".toList := ⟨rfl, rfl⟩
  have htext : Quotes ("caf".toList ++ ['é']) _ :=
    quotes_append (by simp) (.code hescape .close)
  have hmessage : Labelled Spells ("message", .string "café") _ :=
    labelled_plain (by simp) (.string htext)
  have hcolumn : Labelled Spells ("column", one) _ := labelled_plain (by simp) spells_one
  have hrow : Labelled Spells ("row", _) _ := labelled_plain (by simp) htwo
  have hstart : Labelled Spells ("location", _) _ :=
    labelled_plain (by simp) (.object (.row (.cons .nil hcolumn .nil (.last .nil hrow .nil))))
  exact .object (.row (.cons .nil hend .nil (.cons .nil hfile .nil
    (.cons .nil hmessage .nil (.last .nil hstart .nil)))))

theorem renders_accentedRecord : Renders accented accentedRecord := by
  have htwo : RendersWord 2 (.number { whole := ['2'] }) := ⟨['2'], rfl, rfl⟩
  have hstart : RendersMark ⟨2, 1⟩ (.object _) :=
    .object htwo rendersWord_one ⟨[], .swap _ _ [], by simp⟩
  -- the member that comes first is the last one of a finding
  refine .mk (.given "/ws/a.py") .absent hstart (.list htwo htwo) ⟨[], ?_, by simp⟩
  exact @List.perm_append_comm _ [_] [_, _, _]

/-- The record of a finding in a file, with an escaped message and the members in another order,
beside that of the bare one. -/
theorem decode_of_rendering_bare :
    let v : Value := .array [accentedRecord, bareRecord .null]
    let text := '[' :: (accentedText ++ ',' :: ' ' :: (bareText "null".toList ++ [']']))
    Spells v text ∧ decode ("\u2003\n".toList ++ text ++ ['\n']) = .ok [accented, bare] := by
  intro v text
  have hgap : Gap [' '] := List.all_eq_true.1 rfl
  have hs : Spells v text := by
    have hrow := Row.cons .nil spells_accentedRecord .nil
      (.last hgap (spells_bareRecord .null) .nil)
    simpa [text] using Spells.array (.row hrow)
  have hbefore : ∀ c ∈ "\u2003\n".toList, Text.isBlank c = true := List.all_eq_true.1 rfl
  have hafter : ∀ c ∈ ['\n'], Text.isBlank c = true := List.all_eq_true.1 rfl
  refine ⟨hs, ((decode_of_rendering hs hbefore hafter).1 _ [accented, bare] rfl ?_).1 ?_⟩
  · exact .cons renders_accentedRecord (.cons (renders_bareRecord _) .nil)
  · decide +kernel

/-! ### Beyond the limits -/

/-- The bare finding is decoded exactly when the member that is not known is within the limits. -/
theorem decode_bareReport {extra : Value} {s : List Char} (h : Spells extra s) :
    decode (bareReport s)
      = if extra.isWithin 125 then .ok [bare] else .error (.text .malformed) := by
  have hdecoded : decode ([] ++ bareReport s ++ []) = _ :=
    decode_of_spells (spells_bareReport h) (.inl ⟨_, rfl⟩) (by simp) (by simp)
  rw [findings?_array (.cons (renders_bareRecord extra) .nil), isWithin_bareReport] at hdecoded
  simpa using hdecoded

/-- Lists inside each other. -/
def nested : Nat → Value
  | 0 => .array []
  | k + 1 => .array [nested k]

/-- The spelling of lists inside each other. -/
def nestedText : Nat → List Char
  | 0 => "[]".toList
  | k + 1 => '[' :: (nestedText k ++ [']'])

theorem spells_nested (k : Nat) : Spells (nested k) (nestedText k) := by
  induction k with
  | zero => exact .array (.empty .nil)
  | succ k ih => simpa [nested, nestedText] using Spells.array (.row (.last .nil ih .nil))

theorem isWithin_nested (k depth : Nat) : (nested k).isWithin depth = decide (k < depth) := by
  induction k generalizing depth with
  | zero => cases depth <;> simp [nested, Value.isWithin]
  | succ k ih => cases depth <;> simp [nested, Value.isWithin, ih]

/-- A numeral whose number is at most the greatest finite 64-bit float. -/
def great : Numeral where
  whole := "1797693134862315708".toList
  exponent := some (false, "290".toList)

theorem spells_great : Spells (.number great) "1797693134862315708e290".toList := by
  have hw : Whole great.whole := .inr ⟨⟨by decide, List.all_eq_true.1 rfl⟩, by decide⟩
  have he : SpellsExponent great.exponent "e290".toList :=
    .plain (.inl rfl) ⟨by decide, List.all_eq_true.1 rfl⟩
  exact .unsigned rfl (.mk hw .none he)

/-- Reports that nest too deep, or that hold a number which becomes infinite in rounded steps, are
refused although they render a finding. -/
theorem decode_beyond_limits :
    let deep := nested 125
    let deepText := bareReport (nestedText 125)
    let greatText := bareReport "1797693134862315708e290".toList
    (Spells (.array [bareRecord deep]) deepText ∧ Renders bare (bareRecord deep) ∧
      decode deepText = .error (.text .malformed)) ∧
    (great.significand * Nat.pow 10 290 ≤ Nat.pow 2 1024 - Nat.pow 2 971 ∧
      Spells (.array [bareRecord (.number great)]) greatText ∧
      Renders bare (bareRecord (.number great)) ∧
      decode greatText = .error (.text .malformed)) := by
  refine ⟨⟨spells_bareReport (spells_nested 125), renders_bareRecord _, ?_⟩, by decide +kernel,
    spells_bareReport spells_great, renders_bareRecord _, ?_⟩
  · rw [decode_bareReport (spells_nested 125), isWithin_nested]
    rfl
  · have hgreat : great.staysFinite = false := by decide +kernel
    rw [decode_bareReport spells_great]
    simp [Value.isWithin, hgreat]

end LintHost.Report
