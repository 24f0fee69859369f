/-
LintHost/Proofs/Storage/Replacing.lean

What stays on a disk that is changed.  A path leads to the same place as long as the
directories on its way stay directories (`Passes.find`).  Making directories takes nothing away
(`holds_makeDirectories`), and a file that was replaced has the new content (`read_replace`).
-/
import LintHost.Host.Machine
import LintHost.Storage.Replace

namespace LintHost

namespace Storage

/-- Two steps that may fail give a result if both do. -/
theorem bind_eq_ok_iff {ε α β : Type} {x : Except ε α} {f : α → Except ε β} {b : β} :
    x >>= f = .ok b ↔ ∃ a, x = .ok a ∧ f a = .ok b := by
  cases x with
  | error e => simp [bind, Except.bind]
  | ok a => simp [bind, Except.bind]

namespace Disk

variable {d e : Disk} {path file target : Path} {p : Place} {content : List UInt8}

/-! ### Finding and reading -/

theorem find_eq_ok_iff : d.find path = .ok p ↔
    ∃ along, segments path = .ok along ∧ along.foldlM d.step (d.start path) = .ok p :=
  bind_eq_ok_iff

theorem findFile_eq_ok_iff {mode : Nat} : d.findFile file = .ok (p, content, mode) ↔
    d.find file = .ok p ∧ d.get? p = some (.file content mode) := by
  unfold findFile
  rw [bind_eq_ok_iff]
  constructor
  · rintro ⟨q, hq, h⟩
    split at h
    · cases h
    · cases h
    · next hg =>
      cases h
      exact ⟨hq, hg⟩
  · rintro ⟨hp, hg⟩
    refine ⟨p, hp, ?_⟩
    rw [hg]
    rfl

theorem read_eq_ok_iff : d.read file = .ok content ↔
    ∃ p mode, d.findFile file = .ok (p, content, mode) := by
  unfold read
  rcases hf : d.findFile file with fault | ⟨p, found, mode⟩
  · simp [Except.map]
  · simp only [Except.map, Except.ok.injEq, Prod.mk.injEq]
    exact ⟨fun h => ⟨p, mode, rfl, h, rfl⟩, fun ⟨_, _, _, h, _⟩ => h⟩

/-! ### What stays -/

/-- Whether all directories of a disk are still there. -/
structure Passes (d e : Disk) : Prop where
  current : e.current = d.current
  directory : ∀ p, d.get? p = some .directory → e.get? p = some .directory

/-- Whether all that is on a disk is still there. -/
structure Holds (d e : Disk) : Prop where
  current : e.current = d.current
  entry : ∀ p x, d.get? p = some x → e.get? p = some x

theorem Holds.passes (h : Holds d e) : Passes d e :=
  ⟨h.current, fun p => h.entry p _⟩

theorem Passes.step (h : Passes d e) {here next : Place} {segment : List UInt8}
    (hs : d.step here segment = .ok next) : e.step here segment = .ok next := by
  unfold Disk.step at hs ⊢
  split at hs
  · cases hs
  · cases hs
  · next hg =>
    rw [h.directory _ hg]
    exact hs

theorem Passes.along (h : Passes d e) {segments : List (List UInt8)} {here : Place}
    (hs : segments.foldlM d.step here = .ok p) : segments.foldlM e.step here = .ok p := by
  induction segments generalizing here with
  | nil => exact hs
  | cons segment rest ih =>
    rw [List.foldlM_cons, bind_eq_ok_iff] at hs ⊢
    obtain ⟨next, hn, hs⟩ := hs
    exact ⟨next, h.step hn, ih hs⟩

/-- A path leads to the same place as long as the directories stay. -/
theorem Passes.find (h : Passes d e) (hf : d.find path = .ok p) : e.find path = .ok p := by
  rw [find_eq_ok_iff] at hf ⊢
  obtain ⟨along, hs, hf⟩ := hf
  have hstart : e.start path = d.start path := by rw [start, start, h.current]
  rw [hstart]
  exact ⟨along, hs, h.along hf⟩

theorem Holds.read (h : Holds d e) (hr : d.read file = .ok content) :
    e.read file = .ok content := by
  rw [read_eq_ok_iff] at hr ⊢
  obtain ⟨p, mode, hf⟩ := hr
  rw [findFile_eq_ok_iff] at hf
  exact ⟨p, mode, findFile_eq_ok_iff.2 ⟨h.passes.find hf.1, h.entry _ _ hf.2⟩⟩

theorem isThere_of_read (h : d.read file = .ok content) : d.isThere file = true := by
  obtain ⟨p, mode, hf⟩ := read_eq_ok_iff.1 h
  rw [findFile_eq_ok_iff] at hf
  simp only [isThere, hf.1, hf.2, Option.isSome_some]

/-! ### Making directories -/

theorem holds_put (h : d.get? p = none) (x : Entry) : Holds d (d.put p x) := by
  refine ⟨rfl, fun q y hq => ?_⟩
  rwa [get?_put_of_ne]
  rintro rfl
  rw [h] at hq
  cases hq

theorem holds_makeAlong (d : Disk) (here : Place) (segments : List (List UInt8)) :
    Holds d (d.makeAlong here segments).2 := by
  induction segments generalizing d here with
  | nil => exact ⟨rfl, fun _ _ h => h⟩
  | cons segment rest ih =>
    rw [makeAlong]
    split
    · exact ⟨rfl, fun _ _ h => h⟩
    · next next hn =>
      split
      · next hg =>
        have hp := holds_put hg .directory
        have hr := ih (d.put next .directory) next
        exact ⟨hr.current.trans hp.current, fun q x hq => hr.entry q x (hp.entry q x hq)⟩
      · exact ih d next
      · exact ⟨rfl, fun _ _ h => h⟩

/-- Making directories takes nothing away. -/
theorem holds_makeDirectories (d : Disk) (directory : Path) :
    Holds d (d.makeDirectories directory).2 := by
  unfold makeDirectories
  split
  · exact ⟨rfl, fun _ _ h => h⟩
  · exact holds_makeAlong d _ _

/-! ### Changing a file -/

theorem passes_put (h : d.get? p ≠ some .directory) (x : Entry) : Passes d (d.put p x) := by
  refine ⟨rfl, fun q hq => ?_⟩
  rwa [get?_put_of_ne]
  rintro rfl
  exact h hq

theorem passes_drop (h : d.get? p ≠ some .directory) : Passes d (d.drop p) := by
  refine ⟨rfl, fun q hq => ?_⟩
  rwa [get?_drop_of_ne]
  rintro rfl
  exact h hq

theorem ne_nil_of_not_directory (h : d.get? p ≠ some .directory) : p ≠ [] := by
  rintro rfl
  exact h (if_pos rfl)

/-- What is put where no directory is stands under every path that leads there. -/
theorem findFile_put {mode : Nat} (hp : d.find path = .ok p) (h : d.get? p ≠ some .directory) :
    (d.put p (.file content mode)).findFile path = .ok (p, content, mode) :=
  findFile_eq_ok_iff.2 ⟨(passes_put h _).find hp, get?_put_self (ne_nil_of_not_directory h) d _⟩

theorem change_eq_ok {f : List UInt8 → Nat → Entry} (h : d.change file f = (.ok (), e)) :
    ∃ p content mode, d.findFile file = .ok (p, content, mode) ∧ e = d.put p (f content mode) := by
  unfold change at h
  split at h
  · cases h
  · next p content mode hf =>
    cases h
    exact ⟨p, content, mode, hf, rfl⟩

/-- A file that was written has the content. -/
theorem read_write (h : d.write file content = (.ok (), e)) : e.read file = .ok content := by
  obtain ⟨p, old, mode, hf, rfl⟩ := change_eq_ok h
  obtain ⟨hfind, hg⟩ := findFile_eq_ok_iff.1 hf
  exact read_eq_ok_iff.2 ⟨p, mode, findFile_put hfind (by simp [hg])⟩

/-- Setting its permissions leaves the content of a file. -/
theorem read_setPermissions {mode : Nat} (h : d.setPermissions file mode = (.ok (), e))
    (hr : d.read file = .ok content) : e.read file = .ok content := by
  obtain ⟨p, found, old, hf, rfl⟩ := change_eq_ok h
  obtain ⟨q, mode', hq⟩ := read_eq_ok_iff.1 hr
  rw [hf] at hq
  cases hq
  obtain ⟨hfind, hg⟩ := findFile_eq_ok_iff.1 hf
  exact read_eq_ok_iff.2 ⟨p, mode, findFile_put hfind (by simp [hg])⟩

/-! ### Putting a file in a place -/

/-- A place for a file is where its path leads, and no directory is there. -/
theorem find_of_placeFor (h : d.placeFor path = .ok p) :
    d.find path = .ok p ∧ d.get? p ≠ some .directory := by
  unfold placeFor at h
  split at h
  · cases h
  obtain ⟨along, hs, h⟩ := bind_eq_ok_iff.1 h
  extract_lets reversed at h
  split at h
  · cases h
  next name above hlast =>
  obtain ⟨directory, hd, h⟩ := bind_eq_ok_iff.1 h
  obtain ⟨q, hq, h⟩ := bind_eq_ok_iff.1 h
  dsimp only at h
  split at h
  · cases h
  split at h
  · cases h
  next hhead =>
  split at h
  · cases h
  next hno =>
  cases h
  have halong : along = reversed.reverse := (List.reverse_reverse along).symm
  clear_value reversed
  -- the last segment is not empty, so it is the name
  have hreversed : reversed = name :: above := by
    cases reversed with
    | nil => cases hlast
    | cons last rest =>
      rw [List.head?_cons, Option.some.injEq] at hhead
      rwa [List.dropWhile_cons_of_neg (by simpa using hhead)] at hlast
  rw [halong, hreversed, List.reverse_cons] at hs
  refine ⟨find_eq_ok_iff.2 ⟨_, hs, ?_⟩, hno⟩
  rw [List.foldlM_append, hd]
  exact bind_eq_ok_iff.2 ⟨directory, rfl, bind_eq_ok_iff.2 ⟨p, hq, rfl⟩⟩

/-- A file that was put in the place of another path is found under that path. -/
theorem read_rename (h : d.rename file target = (.ok (), e)) (hr : d.read file = .ok content) :
    e.read target = .ok content := by
  unfold rename at h
  obtain ⟨p, mode, hf⟩ := read_eq_ok_iff.1 hr
  rw [hf] at h
  rcases hq : d.placeFor target with fault | q
  · rw [hq] at h
    cases h
  · rw [hq] at h
    cases h
    obtain ⟨hfind, hno⟩ := find_of_placeFor hq
    have hfile : d.get? p ≠ some .directory := by simp [(findFile_eq_ok_iff.1 hf).2]
    -- where the file stood may be the place itself, and then the drop leaves nothing there
    have hdrop : (d.drop p).get? q ≠ some .directory := by
      by_cases h : q = p
      · rw [h, get?_drop_self (ne_nil_of_not_directory hfile)]
        simp
      · rwa [get?_drop_of_ne h]
    exact read_eq_ok_iff.2 ⟨q, mode, findFile_put ((passes_drop hfile).find hfind) hdrop⟩

end Disk

end Storage

/-! ### Replacing a file -/

namespace Machine

open Storage

variable {σ α β : Type}

theorem run_then (m : Machine σ) (p : Plan α) (f : α → Plan β) :
    m.run (p >>= f) = (m.run p).2.run (f (m.run p).1) :=
  run_bind m p f

theorem run_request (m : Machine σ) (r : Request) : m.run (Plan.request r) = m.answer r := rfl

/-- A file that was filled and put in the place of another one is found there. -/
theorem read_fill {m : Machine σ} {temporary file : Path} {content : List UInt8}
    (h : (m.run (fill temporary file content)).1 = .ok ()) :
    (m.run (fill temporary file content)).2.disk.read file = .ok content := by
  have hrename : ∀ {m : Machine σ}, m.disk.read temporary = .ok content →
      (m.answer (.rename temporary file)).1 = .ok () →
      (m.answer (.rename temporary file)).2.disk.read file = .ok content := fun {m} hr h =>
    Disk.read_rename (Prod.ext h rfl) hr
  unfold fill at h ⊢
  rw [run_then, run_request] at h ⊢
  have hwrite : (m.answer (.write temporary content)).1 = .ok () →
      (m.answer (.write temporary content)).2.disk.read temporary = .ok content := fun h =>
    Disk.read_write (Prod.ext h rfl)
  generalize m.answer (.write temporary content) = written at h hwrite ⊢
  obtain ⟨r, m⟩ := written
  cases r with
  | error fault => cases h
  | ok =>
    have hr : m.disk.read temporary = .ok content := hwrite rfl
    dsimp only at h ⊢
    rw [run_then, run_request] at h ⊢
    rcases hp : m.disk.permissions file with fault | mode
    · simp only [answer, hp] at h ⊢
      exact hrename hr h
    · simp only [answer, hp] at h ⊢
      rw [run_then, run_request] at h ⊢
      have hset : (m.answer (.setPermissions temporary mode)).1 = .ok () →
          (m.answer (.setPermissions temporary mode)).2.disk.read temporary = .ok content :=
        fun h => Disk.read_setPermissions (Prod.ext h rfl) hr
      generalize m.answer (.setPermissions temporary mode) = set at h hset ⊢
      obtain ⟨r, m⟩ := set
      cases r with
      | error fault => cases h
      | ok => exact hrename (hset rfl) h

/-- A file that was replaced has the new content. -/
theorem read_replace {m : Machine σ} {file : Path} {content : List UInt8}
    (h : (m.run (replace file content)).1 = .ok ()) :
    (m.run (replace file content)).2.disk.read file = .ok content := by
  unfold replace at h ⊢
  rw [run_then, run_request] at h ⊢
  generalize m.answer (.makeTemporary (directoryOf file)) = r at h ⊢
  obtain ⟨r, m⟩ := r
  cases r with
  | error fault => cases h
  | ok temporary =>
    dsimp only at h ⊢
    rw [run_then] at h ⊢
    have hfill := @read_fill σ m temporary file content
    generalize m.run (fill temporary file content) = filled at h hfill ⊢
    obtain ⟨r, m⟩ := filled
    cases r with
    | error fault => cases h
    | ok => exact hfill rfl

end Machine

end LintHost
