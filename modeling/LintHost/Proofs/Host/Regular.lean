/-
LintHost/Proofs/Host/Regular.lean

What a machine does whose programs keep nothing is one of the runs where anything may go
wrong (`runs_run`), namely one where nothing does but for reasons on the disk.  Its
temporary files have names of their own, so a path that ends in another name does not get
one of them (`find_ne_of_makeTemporary`).
-/
import LintHost.Host.Machine
import LintHost.Proofs.Storage.Directories
import LintHost.Proofs.Text.Decoding

namespace LintHost

open Analyzer Storage

/-! ### Names of temporary files -/

namespace Path

/-- The bytes that the name of a temporary file begins with. -/
def temporary : List UInt8 := Text.encode ".tmp".toList

/-- Whether a path ends in a name, and that is no name of a temporary file. -/
def EndsInOwnName (path : Path) : Prop :=
  ∃ above name, Text.splitOn separator path.raw.bytes = above ++ [name] ∧ ¬isIdle name ∧
    name ≠ [dot, dot] ∧ ¬temporary <+: name

/-- A name that is joined to a path is its last segment. -/
theorem splitOn_join (path : Path) {name : RawText} (hname : separator ∉ name.bytes) :
    ∃ above, Text.splitOn separator (path.join ⟨name⟩).raw.bytes = above ++ [name.bytes] := by
  have hrelative : isAbsolute ⟨name⟩ = false := by
    cases h : name.bytes with
    | nil => simp [isAbsolute, h]
    | cons b rest =>
      have hb : b ≠ separator := fun hb => hname (by simp [h, hb])
      simp [isAbsolute, h, hb]
  have hlast : Text.splitOn separator name.bytes = [name.bytes] := Text.splitOn_of_not_mem hname
  unfold join
  rw [if_neg (by simp [hrelative])]
  split
  · next h =>
    by_cases hempty : path.raw.bytes = []
    · exact ⟨[], by simp [hempty, hlast]⟩
    · obtain ⟨above, habove⟩ := List.getLast?_eq_some_iff.1 (h.resolve_left hempty)
      refine ⟨Text.splitOn separator above, ?_⟩
      rw [RawText.bytes_append, habove, List.append_assoc]
      exact (Text.splitOn_append_cons separator above name.bytes).trans (by rw [hlast])
  · refine ⟨Text.splitOn separator path.raw.bytes, ?_⟩
    rw [RawText.bytes_append, RawText.bytes_append, List.append_assoc]
    exact (Text.splitOn_append_cons separator path.raw.bytes name.bytes).trans (by rw [hlast])

end Path

namespace Storage.Disk

variable {d e : Disk} {path target file directory : Path} {p : Place}

/-- A path that ends in a name leads to an entry of that name. -/
theorem exists_of_find {above : List (List UInt8)} {name : List UInt8} (h : d.find path = .ok p)
    (hparts : Text.splitOn Path.separator path.raw.bytes = above ++ [name])
    (hidle : ¬Path.isIdle name) (hup : name ≠ [Path.dot, Path.dot]) :
    ∃ here, p = here ++ [⟨name⟩] := by
  obtain ⟨along, hs, hfold⟩ := find_eq_ok_iff.1 h
  rw [segments_eq_of_ok hs, hparts, List.foldlM_append, bind_eq_ok_iff] at hfold
  obtain ⟨here, -, hfold⟩ := hfold
  obtain ⟨next, hstep, hnext⟩ := bind_eq_ok_iff.1 hfold
  obtain rfl : next = p := Except.ok.inj hnext
  -- the last segment is a name, so the last step goes down to the entry of that name
  unfold step at hstep
  split at hstep
  · cases hstep
  · cases hstep
  · rw [if_neg hidle, if_neg hup] at hstep
    split at hstep
    · cases hstep
    · exact ⟨here, (Except.ok.inj hstep).symm⟩

/-- A text of digits has no separator. -/
theorem separator_not_mem_encode {s : List Char} (h : ∀ c ∈ s, c.isDigit = true) :
    Path.separator ∉ Text.encode s := by
  intro hm
  obtain ⟨c, hc, hbyte⟩ := List.mem_flatMap.1 hm
  have hrange : 48 ≤ c.toNat ∧ c.toNat ≤ 57 := by
    simpa [Char.isDigit, UInt32.le_iff_toNat_le] using h c hc
  have hcode : String.utf8EncodeChar c = [UInt8.ofNat c.toNat] := by
    rw [← Char.ofNat_toNat c, Text.utf8EncodeChar_ofNat (.inl (by omega)), if_pos (by omega),
      Char.ofNat_toNat]
  rw [hcode, List.mem_singleton] at hbyte
  have hslash : 0x2F = c.toNat % 256 := congrArg UInt8.toNat hbyte
  omega

theorem freshName_eq (d : Disk) (p : Place) :
    ∃ rest, (d.freshName p).bytes = Path.temporary ++ rest ∧ Path.separator ∉ rest := by
  unfold freshName
  extract_lets candidates
  rcases hfound : candidates.find? fun name => d.get? (p ++ [name]) = none with - | name
  · exact ⟨[], rfl, List.not_mem_nil⟩
  · obtain ⟨n, -, rfl⟩ := List.mem_map.1 (List.mem_of_find?_eq_some hfound)
    refine ⟨Text.encode (Nat.toDigits 10 n), ?_, separator_not_mem_encode fun c hc => ?_⟩
    · show Text.encode (".tmp" ++ n.repr).toList = _
      rw [String.toList_append, Nat.toList_repr]
      exact List.flatMap_append
    · exact Nat.isDigit_of_mem_toDigits (by decide) (by decide) hc

/-- A path that ends in another name does not lead to a new temporary file. -/
theorem find_ne_of_makeTemporary (ht : target.EndsInOwnName)
    (h : d.makeTemporary directory = (.ok file, e)) (hf : d.find file = .ok p) :
    d.find target ≠ .ok p := by
  obtain ⟨above, name, hparts, hidle, hup, hown⟩ := ht
  intro htarget
  obtain ⟨here, rfl⟩ := exists_of_find htarget hparts hidle hup
  -- the file was joined to a directory under a fresh name
  obtain ⟨q, rfl⟩ : ∃ q, file = directory.join ⟨d.freshName q⟩ := by
    unfold makeTemporary at h
    split at h
    · cases (Prod.mk.inj h).1
    · next q hq =>
      dsimp only at h
      split at h
      · cases (Prod.mk.inj h).1
      · split at h
        · cases (Prod.mk.inj h).1
        · exact ⟨q, (Except.ok.inj (Prod.mk.inj h).1).symm⟩
  obtain ⟨rest, hrest, hslash⟩ := d.freshName_eq q
  have hplain : Path.separator ∉ (d.freshName q).bytes := by
    rw [hrest, List.mem_append, not_or]
    exact ⟨by decide, hslash⟩
  obtain ⟨above', habove'⟩ := directory.splitOn_join hplain
  obtain ⟨here', hplace⟩ := exists_of_find hf habove' (by rw [hrest]; exact Bool.false_ne_true)
    (by rw [hrest]; nofun)
  have hname : name = (d.freshName q).bytes := by
    have hlast : RawText.mk name = d.freshName q :=
      List.singleton_inj.1 (List.append_inj_right' hplace rfl)
    rw [← hlast]
  exact hown ⟨rest, by rw [hname, hrest]⟩

end Storage.Disk

/-! ### Machines -/

/-- The world of a machine whose programs keep nothing: they reply as they do on its disk. -/
def Machine.world (m : Machine Unit) (target : Path) : World where
  analyzer d call := (({ m with disk := d } : Machine Unit).answer (.run call)).1
  target

namespace Machine

variable {σ α : Type}

theorem program?_answer (m : Machine σ) (r : Request) :
    (m.answer r).2.program? = m.program? := by
  cases r with
  | run call =>
    simp only [answer, runProgram]
    split <;> rfl
  | _ => rfl

theorem disk_answer_run (m : Machine σ) (call : Invocation) :
    (m.answer (.run call)).2.disk = m.disk := by
  simp only [answer, runProgram]
  split <;> rfl

variable {m : Machine Unit} {target : Path}

/-- Nothing that is asked of a machine changes its world. -/
theorem world_answer (m : Machine Unit) (r : Request) (target : Path) :
    (m.answer r).2.world target = m.world target := by
  rw [world, world, m.program?_answer r]

theorem answers_answer (ht : target.EndsInOwnName) (r : Request) :
    Answers (m.world target) m.disk r (m.answer r).1 (m.answer r).2.disk := by
  cases r with
  | read | isThere | permissions => exact ⟨.inl rfl, rfl⟩
  | makeDirectories | write | setPermissions | rename => exact .inl rfl
  | remove => rfl
  | run call => exact ⟨rfl, m.disk_answer_run call⟩
  | makeTemporary directory =>
    show Answers (m.world target) m.disk (.makeTemporary directory)
      (m.disk.makeTemporary directory).1 (m.disk.makeTemporary directory).2
    rcases hmade : m.disk.makeTemporary directory with ⟨fault | file, e⟩
    · exact .inr ⟨⟨fault, rfl⟩, Disk.makeTemporary_error hmade⟩
    · obtain ⟨t, hf, hnone, rfl⟩ := Disk.get?_makeTemporary hmade
      exact .inl ⟨file, t, rfl, hf, hnone, Disk.find_ne_of_makeTemporary ht hmade hf, rfl⟩

/-- **What a machine does is one of the runs** in its world. -/
theorem runs_run (m : Machine Unit) (ht : target.EndsInOwnName) (p : Plan α) :
    ∃ log, Runs (m.world target) p m.disk log (m.run p).1 (m.run p).2.disk := by
  induction p generalizing m with
  | done a => exact ⟨[], rfl, rfl, rfl⟩
  | ask r next ih =>
    obtain ⟨log, hlog⟩ := ih (m.answer r).1 (m.answer r).2
    -- the machine that goes on is another one, but in the same world
    rw [world_answer] at hlog
    exact ⟨_, _, _, log, rfl, answers_answer ht r, hlog⟩

end Machine

end LintHost
