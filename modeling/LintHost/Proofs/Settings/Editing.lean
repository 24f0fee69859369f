/-
LintHost/Proofs/Settings/Editing.lean

What a toggle changes in a file.  The file is left with the document in which one line was turned
over or added, and with no other change than writing a document back may bring.  So no comment is
lost but the one behind the old value, whatever the layout of the document; the others come out in
order, and all other lines as they were, where the document is written back as it was read
(`toggling_turns_one_line`).

A comment behind the value is lost even there (`toggle_loses_comment`).
-/
import LintHost.Proofs.Settings.Toggling
import LintHost.Proofs.Toml.Turning
import LintHost.Proofs.Toml.Unchanged

namespace LintHost.Settings

open Toml (TurnsLine comments written membersWithin)
open Storage

variable {σ : Type} {m : Machine σ} {file : Path} {w : Switch} {s : List Char}
  {ts : List Toml.Token} {d : Toml.Document}

/-- A switch is turned over in a text whose numbers can be used. -/
theorem toggle?_of_read (hd : Toml.Document.read s = some d)
    (hn : membersWithin .narrow d.values = true) (w : Switch) :
    toggle? w s = some (!w.position d.values, (d.setRoot w.key (!w.position d.values)).print) := by
  refine Option.bind_eq_some_iff.2 ⟨d, hd, ?_⟩
  simp only [hn]
  rfl

theorem mem_of_mem_withoutMark {c : Char} (h : c ∈ Toml.Document.withoutMark s) : c ∈ s := by
  unfold Toml.Document.withoutMark at h
  split at h
  · exact List.mem_cons_of_mem _ h
  · exact h

/-- Where a key of the root table is a truth value if it is there, so is the node. -/
theorem flag_of_values {name : String}
    (h : ∀ v, d.values.lookup name = some v → ∃ was, v = .boolean was) :
    ∀ n, Toml.node? name d.members = some n →
      ∃ was right, n = .value (.boolean was) right := by
  intro n hnode
  have hlookup : d.values.lookup name = some n.toValue := by
    rw [Toml.Document.values, Toml.lookup_valuesOf, hnode]
    rfl
  obtain ⟨was, hwas⟩ := h _ hlookup
  cases n with
  | value v right =>
    obtain rfl : v = .boolean was := hwas
    exact ⟨was, right, rfl⟩
  | table origin ms => cases hwas
  | tables newest older => cases hwas

/-- A toggle leaves the file with the document in which the switch was set. -/
theorem toggleIn_of_read (hd : Toml.Document.read s = some d)
    (hn : membersWithin .narrow d.values = true)
    (hf : ((m.run (makeParent file)).2.run (currentText file)).1 = .ok (String.ofList s))
    (hb : ¬Blocked (m.run (toggleIn file w)).1) :
    (m.run (toggleIn file w)).1 = .ok (!w.position d.values) ∧
      (m.run (toggleIn file w)).2.disk.read file
        = .ok (Text.encode (d.setRoot w.key (!w.position d.values)).print) := by
  obtain ⟨text, htext, hcases⟩ := toggleIn_eq hb
  obtain rfl : String.ofList s = text := Except.ok.inj (hf.symm.trans htext)
  rw [String.toList_ofList, toggle?_of_read hd hn] at hcases
  obtain ⟨hnone, -⟩ | ⟨on, edited, e, hresult, hfile⟩ := hcases
  · cases hnone
  · cases e
    exact ⟨hresult, hfile⟩

/-- A toggle that no file operation stops leaves the file with one line turned over or added, beside
what the document looks like when it is written without a change.

Of the comments of the text, exactly those behind the old value are lost, and the others come out
in order exactly if writing the document back leaves them in order.  A document of plain statements
is written as it was read, but for a line end at its end, so there all other lines are kept. -/
theorem toggling_turns_one_line (ht : Toml.tokens (Toml.Document.withoutMark s) = some ts)
    (hd : Toml.Document.read s = some d) (hn : membersWithin .narrow d.values = true)
    (hroot : ∀ v, d.values.lookup w.key = some v → ∃ was, v = .boolean was)
    (hf : ((m.run (makeParent file)).2.run (currentText file)).1 = .ok (String.ofList s))
    (hb : ¬Blocked (m.run (toggleIn file w)).1) :
    ∃ edited lost, (m.run (toggleIn file w)).1 = .ok (!w.position d.values) ∧
      (m.run (toggleIn file w)).2.disk.read file = .ok (Text.encode (written edited)) ∧
      Toml.tokens (written edited) = some edited ∧
      TurnsLine w.key (!w.position d.values) d.tokens edited lost ∧
      (comments edited ++ lost).Perm (comments ts) ∧
      (comments edited = comments ts ↔ lost = [] ∧ comments d.tokens = comments ts) ∧
      (Toml.Plain ts → d.tokens = ts ∨ d.tokens = ts ++ [.newline]) ∧
      ('\r' ∉ s → written ts = Toml.Document.withoutMark s) := by
  have hsound := Toml.sound_of_read_document hd
  have hvalue := flag_of_values hroot
  obtain ⟨hresult, hfile⟩ := toggleIn_of_read hd hn hf hb
  generalize (!w.position d.values) = on at hresult hfile ⊢
  obtain ⟨lost, hturned⟩ := Toml.turnsLine_setRoot hsound hvalue on
  -- what is written is told apart into the tokens it was made of
  have hset := hsound.setRoot (legible_key w) (fun n hnode => by
    obtain ⟨was, right, rfl⟩ := hvalue n hnode
    exact ⟨_, right, rfl⟩) on
  have hedited := Toml.tokens_written hset.clear_tokens
  have hperm := Toml.comments_read_perm ht hd
  refine ⟨(d.setRoot w.key on).tokens, lost, hresult, hfile, hedited, hturned,
    hturned.perm.trans hperm, hturned.comments_eq_iff hperm, Toml.tokens_of_plain ht hd,
    fun hr => ?_⟩
  apply Toml.written_tokens ht
  intro hm
  exact hr (mem_of_mem_withoutMark hm)

/-! ### A comment behind the value -/

/-- What a toggle of the one file reads is the text in it. -/
theorem currentText_lone (s : List Char) :
    (((loneFile s).run (makeParent lonePath)).2.run (currentText lonePath)).1
      = .ok (String.ofList s) := by
  have hparent : (loneFile s).run (makeParent lonePath) = (.ok (), loneFile s) := rfl
  have hcurrent : (loneFile s).run (currentText lonePath) = (loneFile s).run (readText lonePath) :=
    rfl
  rw [hparent, hcurrent, run_readText_lone]

/-- No file operation stops a toggle of the one file where its text can be edited. -/
theorem not_blocked_lone (hd : Toml.Document.read s = some d)
    (hn : membersWithin .narrow d.values = true) (w : Switch) :
    ¬Blocked ((loneFile s).run (toggleIn lonePath w)).1 := by
  rw [run_toggleIn_lone, toggle?_of_read hd hn]
  rintro ⟨fault, file, h | h⟩ <;> cases h

/-- The statements of the text with a comment and a section are plain. -/
theorem plain_commented {ts : List Toml.Token} (h : Toml.tokens commented = some ts) :
    Toml.Plain ts := by
  have hall : (Toml.tokens commented).all (fun ts => decide (Toml.Plain ts)) = true := by cbv
  rw [h] at hall
  exact of_decide_eq_true hall

/-- The switch for suppression comments is turned over in a text with a comment behind it and a
section. -/
theorem toggling_turns_one_line_commented : ∃ ts d,
    Toml.tokens (Toml.Document.withoutMark commented) = some ts ∧
    Toml.Document.read commented = some d ∧ membersWithin .narrow d.values = true ∧
    (∀ v, d.values.lookup Switch.useNoqa.key = some v → ∃ was, v = .boolean was) ∧
    (((loneFile commented).run (makeParent lonePath)).2.run (currentText lonePath)).1
      = .ok (String.ofList commented) ∧
    ¬Blocked ((loneFile commented).run (toggleIn lonePath .useNoqa)).1 ∧
    ∃ edited lost, ((loneFile commented).run (toggleIn lonePath .useNoqa)).2.disk.read lonePath
        = .ok (Text.encode (written edited)) ∧
      TurnsLine Switch.useNoqa.key (!Switch.useNoqa.position d.values) d.tokens edited lost ∧
      (comments edited ++ lost).Perm (comments ts) ∧
      (d.tokens = ts ∨ d.tokens = ts ++ [.newline]) := by
  obtain ⟨d, hd, hvalues⟩ := Option.map_eq_some_iff.1 membersOf?_commented
  obtain ⟨ts, hts, -⟩ := Option.bind_eq_some_iff.1 hd
  have hn : membersWithin .narrow d.values = true := by
    rw [hvalues]
    decide
  have hroot : ∀ v, d.values.lookup Switch.useNoqa.key = some v → ∃ was, v = .boolean was :=
    fun v hv => by
      rw [hvalues] at hv
      cases hv
      exact ⟨false, rfl⟩
  have hf := currentText_lone commented
  have hb := not_blocked_lone hd hn .useNoqa
  obtain ⟨edited, lost, -, hfile, -, hturned, hperm, -, hback, -⟩ :=
    toggling_turns_one_line hts hd hn hroot hf hb
  exact ⟨ts, d, hts, hd, hn, hroot, hf, hb, edited, lost, hfile, hturned, hperm,
    hback (plain_commented hts)⟩

/-- A text with a comment behind the value of a switch. -/
def annotated : List Char :=
  "enabled = true # on\n".toList

/-- The document of a text with one line. -/
def oneLine (tail : List Toml.Token) : Toml.Document where
  members := [(Toml.Key.plain "enabled",
    .value (.boolean true) (Toml.flagTokens true ++ tail))]
  rest := []

theorem read_annotated : Toml.Document.read annotated
    = some (oneLine [.char ' ', .comment "# on".toList]) := by
  cbv

theorem comments_annotated : (Toml.tokens annotated).map comments = some ["# on".toList] := by
  cbv

theorem comments_turned :
    (Toml.tokens "enabled = false\n".toList).map comments = some [] := by
  cbv

theorem toggle?_annotated :
    toggle? .enabled annotated = some (false, "enabled = false\n".toList) := by
  have hnew : (oneLine [.char ' ', .comment "# on".toList]).setRoot "enabled" false
      = { members := [(Toml.Key.plain "enabled", Toml.Node.flag false)], rest := [] } := rfl
  have hnone : Toml.sections [(Toml.Key.plain "enabled", Toml.Node.flag false)] = [] := by
    rw [Toml.sections, ← List.length_eq_zero_iff, List.length_mergeSort]
    rfl
  have hprint : ((oneLine [.char ' ', .comment "# on".toList]).setRoot "enabled" false).print
      = "enabled = false\n".toList := by
    rw [hnew, Toml.Document.print, Toml.Document.tokens, hnone]
    rfl
  rw [toggle?_of_read read_annotated (by decide), ← hprint]
  rfl

/-- The comment behind the value that is turned over is lost. -/
theorem toggle_loses_comment :
    (∃ d, Toml.Document.read annotated = some d ∧ membersWithin .narrow d.values = true ∧
      d.values.lookup Switch.enabled.key = some (.boolean true)) ∧
    (Toml.tokens annotated).map comments = some ["# on".toList] ∧
    (loneFile annotated).run (toggleIn lonePath .enabled)
      = (.ok false, loneFile "enabled = false\n".toList) ∧
    (Toml.tokens "enabled = false\n".toList).map comments = some [] := by
  refine ⟨⟨_, read_annotated, by decide, rfl⟩, comments_annotated, ?_, comments_turned⟩
  rw [run_toggleIn_lone, toggle?_annotated]

end LintHost.Settings
