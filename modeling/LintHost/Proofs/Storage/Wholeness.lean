/-
LintHost/Proofs/Storage/Wholeness.lean

Replacing a file where anything may go wrong is all or nothing (`runs_replace`).  Until
the very last step the path shows what it showed before: the new content is gathered in
a file beside it (`Beside`).  If a step fails, that file is removed and the disk is as
it was.  If none does, the path holds exactly the new content, with the permissions that
the old file had as far as they could be told, and nothing else has changed.

The places of paths are compared by directories alone, and a file beside the others is
none; so all the disks on the way lead every path to the same place.
-/
import LintHost.Proofs.Host.Mishaps
import LintHost.Proofs.Storage.Replacing

namespace LintHost

open Analyzer Storage

namespace Storage.Disk

variable {d e x : Disk} {path file : Path} {p t : Place}

/-! ### What a path shows -/

/-- What stands where a path leads. -/
def at? (d : Disk) (path : Path) : Option Entry :=
  match d.find path with
  | .ok p => d.get? p
  | .error _ => none

/-- Whether two disks hold the same at every place. -/
structure Same (d e : Disk) : Prop where
  current : e.current = d.current
  entry : ∀ p, e.get? p = d.get? p

theorem Same.refl (d : Disk) : Same d d := ⟨rfl, fun _ => rfl⟩

theorem Same.symm (h : Same d e) : Same e d :=
  ⟨h.current.symm, fun p => (h.entry p).symm⟩

theorem Same.passes (h : Same d e) : Passes d e :=
  ⟨h.current, fun p hp => (h.entry p).trans hp⟩

theorem at?_of_passes (h : Passes d e) (h' : Passes e d)
    (heq : ∀ p, d.find path = .ok p → e.get? p = d.get? p) : e.at? path = d.at? path := by
  unfold at?
  rcases hd : d.find path with fault | p
  · rcases he : e.find path with fault' | q
    · rfl
    · rw [h'.find he] at hd
      cases hd
  · rw [h.find hd]
    exact heq p hd

theorem Same.at? (h : Same d e) (path : Path) : e.at? path = d.at? path :=
  at?_of_passes h.passes h.symm.passes fun p _ => h.entry p

/-! ### A file beside the others -/

/-- Whether a disk is another one with one file more, at a place where nothing was. -/
structure Beside (t : Place) (d x : Disk) : Prop where
  current : x.current = d.current
  fresh : d.get? t = none
  file : ∃ content mode, x.get? t = some (.file content mode)
  elsewhere : ∀ q, q ≠ t → x.get? q = d.get? q

namespace Beside

variable (h : Beside t d x)

include h

theorem passes : Passes d x := by
  refine ⟨h.current, fun q hq => ?_⟩
  rw [h.elsewhere q ?_]
  · exact hq
  · rintro rfl
    rw [h.fresh] at hq
    cases hq

theorem passes_symm : Passes x d := by
  refine ⟨h.current.symm, fun q hq => ?_⟩
  rw [← h.elsewhere q ?_]
  · exact hq
  · rintro rfl
    obtain ⟨content, mode, hf⟩ := h.file
    rw [hf] at hq
    cases hq

theorem not_directory : x.get? t ≠ some .directory := by
  obtain ⟨content, mode, hf⟩ := h.file
  simp [hf]

theorem ne_nil : t ≠ [] := ne_nil_of_not_directory h.not_directory

/-- A path that does not lead to the file shows what it showed without it. -/
theorem at?_eq (hp : d.find path ≠ .ok t) : x.at? path = d.at? path := by
  refine at?_of_passes h.passes h.passes_symm fun p hd => h.elsewhere p ?_
  rintro rfl
  exact hp hd

theorem put (content : List UInt8) (mode : Nat) : Beside t d (x.put t (.file content mode)) where
  current := h.current
  fresh := h.fresh
  file := ⟨content, mode, get?_put_self h.ne_nil x _⟩
  elsewhere q hq := (get?_put_of_ne hq x _).trans (h.elsewhere q hq)

theorem findFile (hf : d.find file = .ok t) :
    ∃ content mode, x.findFile file = .ok (t, content, mode) := by
  obtain ⟨content, mode, hg⟩ := h.file
  exact ⟨content, mode, findFile_eq_ok_iff.2 ⟨h.passes.find hf, hg⟩⟩

/-- Writing the file leaves it beside the others, whatever is written. -/
theorem write (hf : d.find file = .ok t) (content : List UInt8) :
    Beside t d (x.write file content).2 := by
  obtain ⟨old, mode, hfile⟩ := h.findFile hf
  simp only [Disk.write, change, hfile]
  exact h.put content mode

theorem setPermissions (hf : d.find file = .ok t) (mode : Nat) :
    Beside t d (x.setPermissions file mode).2 := by
  obtain ⟨content, old, hfile⟩ := h.findFile hf
  simp only [Disk.setPermissions, change, hfile]
  exact h.put content mode

theorem get?_write (hf : d.find file = .ok t) (content : List UInt8) :
    ∃ mode, (x.write file content).2.get? t = some (.file content mode) := by
  obtain ⟨old, mode, hfile⟩ := h.findFile hf
  simp only [Disk.write, change, hfile]
  exact ⟨mode, get?_put_self h.ne_nil x _⟩

theorem get?_setPermissions {content : List UInt8} {old : Nat} (hf : d.find file = .ok t)
    (hx : x.get? t = some (.file content old)) (mode : Nat) :
    (x.setPermissions file mode).2.get? t = some (.file content mode) := by
  have hfile : x.findFile file = .ok (t, content, old) :=
    findFile_eq_ok_iff.2 ⟨h.passes.find hf, hx⟩
  simp only [Disk.setPermissions, change, hfile]
  exact get?_put_self h.ne_nil x _

/-- Removing the file leaves the disk without it. -/
theorem remove (hf : d.find file = .ok t) : Same d (x.remove file) := by
  obtain ⟨content, mode, hfile⟩ := h.findFile hf
  simp only [Disk.remove, hfile]
  refine ⟨h.current, fun q => ?_⟩
  by_cases hq : q = t
  · rw [hq, get?_drop_self h.ne_nil, h.fresh]
  · rw [get?_drop_of_ne hq, h.elsewhere q hq]

/-- Putting the file in the place of a path leaves it there, and the rest as it was. -/
theorem rename {content : List UInt8} {mode : Nat} (hf : d.find file = .ok t)
    (hx : x.get? t = some (.file content mode)) (hr : x.rename file path = (.ok (), e)) :
    ∃ q, d.find path = .ok q ∧ e.find path = .ok q ∧ e.get? q = some (.file content mode) ∧
      ∀ p, p ≠ q → e.get? p = d.get? p := by
  have hfile : x.findFile file = .ok (t, content, mode) :=
    findFile_eq_ok_iff.2 ⟨h.passes.find hf, hx⟩
  unfold Disk.rename at hr
  rw [hfile] at hr
  rcases hq : x.placeFor path with fault | q
  · rw [hq] at hr
    cases hr
  · rw [hq] at hr
    cases hr
    obtain ⟨hfind, hno⟩ := find_of_placeFor hq
    -- the file may stand at the place itself, and then nothing does once it is taken away
    have hdrop : (x.drop t).get? q ≠ some .directory := by
      by_cases hqt : q = t
      · rw [hqt, get?_drop_self h.ne_nil]
        simp
      · rwa [get?_drop_of_ne hqt]
    refine ⟨q, h.passes_symm.find hfind, ?_, get?_put_self (ne_nil_of_not_directory hdrop) _ _, ?_⟩
    · exact (passes_put hdrop _).find ((passes_drop h.not_directory).find hfind)
    · intro p hp
      rw [get?_put_of_ne hp]
      by_cases hpt : p = t
      · rw [hpt, get?_drop_self h.ne_nil, h.fresh]
      · rw [get?_drop_of_ne hpt, h.elsewhere p hpt]

end Beside

end Storage.Disk

/-! ### Filling and replacing -/

section Replacing

variable {w : World} {d e x : Disk} {log before : List Stage} {path temporary : Path} {t : Place}
  {content : List UInt8} {r : Except Fault Unit}

open Storage.Disk

/-- Whether a stage is the refusal to tell the permissions of a file. -/
def Stage.HidesPermissions (s : Stage) (path : Path) : Prop :=
  ∃ d fault, s = ⟨d, .permissions path, .error fault⟩

/-- Whether a path holds a content where it led before, and all else is as it was.  The
permissions are those of the file that was there, unless they could not be told. -/
def Replaced (path : Path) (d : Disk) (log : List Stage) (content : List UInt8) (e : Disk) :
    Prop :=
  ∃ q mode, d.find path = .ok q ∧ e.find path = .ok q ∧ e.get? q = some (.file content mode) ∧
    (∀ p, p ≠ q → e.get? p = d.get? p) ∧
    ∀ old kept, d.get? q = some (.file old kept) → (∀ s ∈ log, ¬s.HidesPermissions path) →
      mode = kept

/-- The more stages there are, the more of them may hide the permissions. -/
theorem Replaced.of_log (h : Replaced path d before content e) (hsub : before ⊆ log) :
    Replaced path d log content e := by
  obtain ⟨q, mode, hd, he, hg, hrest, hmode⟩ := h
  refine ⟨q, mode, hd, he, hg, hrest, fun old kept hold htold => ?_⟩
  exact hmode old kept hold fun s hs => htold s (hsub hs)

/-- Whether a run that rewrites a path came to all or to nothing.  On the way the path shows what it
showed before.  If the run fails, the disk is as it was; else the path holds a content that goes
with the result. -/
structure AllOrNothing {ε α : Type} (path : Path) (d : Disk) (log : List Stage) (r : Except ε α)
    (goes : α → List UInt8 → Prop) (e : Disk) : Prop where
  seen : ∀ y, Seen log y → y.at? path = d.at? path
  nothing : ∀ fault, r = .error fault → Same d e
  all : ∀ a, r = .ok a → ∃ content, goes a content ∧ Replaced path d log content e

namespace AllOrNothing

variable {ε α : Type} {goes : α → List UInt8 → Prop}

/-- A run that has failed before it did anything. -/
theorem of_error (path : Path) (d : Disk) (fault : ε) :
    AllOrNothing path d [] (.error fault) goes d where
  seen _ hy := (not_seen_nil hy).elim
  nothing _ _ := .refl d
  all _ h := by cases h

/-- Looking at the disk before makes no difference. -/
theorem of_append {r : Except ε α} (h : AllOrNothing path d log r goes e)
    (hbefore : ∀ y, Seen before y → y = d) : AllOrNothing path d (before ++ log) r goes e where
  seen := forall_seen_append.2 ⟨fun y hy => congrArg (·.at? path) (hbefore y hy), h.seen⟩
  nothing := h.nothing
  all a ha := by
    obtain ⟨content, hgoes, hreplaced⟩ := h.all a ha
    exact ⟨content, hgoes, hreplaced.of_log fun s hs => List.mem_append_right before hs⟩

end AllOrNothing

theorem permissions_of_get? {p : Place} {old : List UInt8} {mode : Nat}
    (hf : d.find path = .ok p) (hg : d.get? p = some (.file old mode)) :
    d.permissions path = .ok mode := by
  simp only [Disk.permissions, hf, bind, Except.bind, hg]
  rfl

/-- Gives a new file the permissions of the file that it is to replace, if they can be told. -/
def keepPermissions (temporary file : Path) : Plan (Except Fault Unit) := do
  match ← Plan.request (.permissions file) with
  | .error _ => return .ok ()
  | .ok mode => Plan.request (.setPermissions temporary mode)

/-- A file is filled in three steps, each taken only if the one before it was not refused. -/
theorem fill_eq (temporary file : Path) (content : List UInt8) :
    fill temporary file content = (do
      match ← Plan.request (.write temporary content) with
      | .error fault => return .error fault
      | .ok () =>
        match ← keepPermissions temporary file with
        | .error fault => return .error fault
        | .ok () => Plan.request (.rename temporary file)) := by
  unfold fill keepPermissions
  refine congrArg (Plan.ask (.write temporary content)) (funext fun written => ?_)
  cases written with
  | error fault => rfl
  | ok =>
    refine congrArg (Plan.ask (.permissions file)) (funext fun told => ?_)
    cases told <;> rfl

/-- The first step: the content is written to the file beside the others. -/
theorem runs_write (hb : Beside t d x) (hf : d.find temporary = .ok t)
    (h : Runs w (Plan.request (.write temporary content)) x log r e) :
    (∀ y, Seen log y → Beside t d y) ∧ Beside t d e ∧
      (r = .ok () → ∃ mode, e.get? t = some (.file content mode)) := by
  obtain ⟨answer, x', rest, rfl, ha, rfl, rfl, rfl⟩ := h
  have during {y : Disk} (hy : During x (.write temporary content) y) : Beside t d y := by
    rcases hy with rfl | ⟨part, rfl⟩
    · exact hb
    · exact hb.write hf part
  refine ⟨fun y hy => during (seen_singleton.1 hy), ?_⟩
  rcases ha with hregular | ⟨⟨fault, rfl⟩, he⟩
  · obtain rfl : e = (x.write temporary content).2 := congrArg Prod.snd hregular
    exact ⟨hb.write hf content, fun _ => hb.get?_write hf content⟩
  · -- a refused write may have left anything in the file, but no more than that
    refine ⟨during he, ?_⟩
    rintro ⟨⟩

/-- The second step: the file gets the permissions of the old one, if they can be told. -/
theorem runs_keepPermissions (hb : Beside t d x) (hf : d.find temporary = .ok t) {own : Nat}
    (hx : x.get? t = some (.file content own))
    (h : Runs w (keepPermissions temporary path) x log r e) :
    (∀ y, Seen log y → Beside t d y) ∧ Beside t d e ∧
      (r = .ok () → ∃ mode, e.get? t = some (.file content mode) ∧
        ∀ q old kept, d.find path = .ok q → d.get? q = some (.file old kept) →
          (∀ s ∈ log, ¬s.HidesPermissions path) → mode = kept) := by
  obtain ⟨told, x, rest, rfl, ⟨htold, rfl⟩, h⟩ := h
  have first {y : Disk} (hy : During x (.permissions path) y) : Beside t d y := by
    obtain rfl := hy
    exact hb
  cases told with
  | error fault =>
    obtain ⟨rfl, rfl, rfl⟩ := h
    refine ⟨fun y hy => first (seen_singleton.1 hy), hb, fun _ => ⟨own, hx, ?_⟩⟩
    intro _ _ _ _ _ htold
    exact absurd ⟨e, fault, rfl⟩ (htold _ List.mem_cons_self)
  | ok mode =>
    have htold : x.permissions path = .ok mode := by
      rcases htold with htold | ⟨_, hno⟩
      · exact htold.symm
      · cases hno
    obtain ⟨answer, _, rest, rfl, hset, rfl, rfl, rfl⟩ := h
    refine ⟨fun y hy => ?_, ?_⟩
    · rcases seen_cons.1 hy with hy | hy
      · exact first hy
      · obtain rfl := seen_singleton.1 hy
        exact hb
    rcases hset with hregular | ⟨⟨fault, rfl⟩, rfl⟩
    · obtain rfl : e = (x.setPermissions temporary mode).2 := congrArg Prod.snd hregular
      refine ⟨hb.setPermissions hf mode, fun _ => ⟨mode, hb.get?_setPermissions hf hx mode, ?_⟩⟩
      intro q old kept hq hold _
      -- the old file is not the one beside it, so its permissions are those that were told
      have hqt : q ≠ t := by
        rintro rfl
        rw [hb.fresh] at hold
        cases hold
      have hold₁ : x.get? q = some (.file old kept) := (hb.elsewhere q hqt).trans hold
      rw [permissions_of_get? (hb.passes.find hq) hold₁] at htold
      exact (Except.ok.inj htold).symm
    · refine ⟨hb, ?_⟩
      rintro ⟨⟩

/-- The last step: the file takes the place of a path, or stays where it is. -/
theorem runs_rename (hb : Beside t d x) (hf : d.find temporary = .ok t) {mode : Nat}
    (hx : x.get? t = some (.file content mode))
    (h : Runs w (Plan.request (.rename temporary path)) x log r e) :
    (∀ y, Seen log y → Beside t d y) ∧
      ((∃ fault, r = .error fault ∧ Beside t d e) ∨
        r = .ok () ∧ ∃ q, d.find path = .ok q ∧ e.find path = .ok q ∧
          e.get? q = some (.file content mode) ∧ ∀ p, p ≠ q → e.get? p = d.get? p) := by
  obtain ⟨answer, x', rest, rfl, ha, rfl, rfl, rfl⟩ := h
  refine ⟨fun y hy => ?_, ?_⟩
  · obtain rfl := seen_singleton.1 hy
    exact hb
  · rcases ha with hregular | ⟨⟨fault, rfl⟩, rfl⟩
    · cases r with
      | ok => exact .inr ⟨rfl, hb.rename hf hx hregular.symm⟩
      | error fault =>
        refine .inl ⟨fault, rfl, ?_⟩
        -- a rename that is refused for a reason on the disk changes nothing either
        obtain rfl : e = x := by
          unfold Disk.rename at hregular
          split at hregular
          · exact (Prod.mk.inj hregular).2
          · exact (Prod.mk.inj hregular).2
          · cases (Prod.mk.inj hregular).1
        exact hb
    · exact .inl ⟨fault, rfl, hb⟩

/-- While a file is filled it stays beside the others, until it takes the place of a path. -/
theorem runs_fill (hb : Beside t d x) (hf : d.find temporary = .ok t)
    (h : Runs w (fill temporary path content) x log r e) :
    (∀ y, Seen log y → Beside t d y) ∧
      ((∃ fault, r = .error fault ∧ Beside t d e) ∨
        r = .ok () ∧ Replaced path d log content e) := by
  rw [fill_eq] at h
  obtain ⟨writing, log, written, x₁, rfl, hwrite, h⟩ := runs_bind_iff.1 h
  obtain ⟨hseen₁, hb₁, hwritten⟩ := runs_write hb hf hwrite
  cases written with
  | error fault =>
    obtain ⟨rfl, rfl, rfl⟩ := h
    rw [List.append_nil]
    exact ⟨hseen₁, .inl ⟨fault, rfl, hb₁⟩⟩
  | ok =>
    obtain ⟨own, hx₁⟩ := hwritten rfl
    obtain ⟨keeping, log, kept, x₂, rfl, hkeep, h⟩ := runs_bind_iff.1 h
    obtain ⟨hseen₂, hb₂, hkept⟩ := runs_keepPermissions hb₁ hf hx₁ hkeep
    cases kept with
    | error fault =>
      obtain ⟨rfl, rfl, rfl⟩ := h
      rw [List.append_nil]
      exact ⟨forall_seen_append.2 ⟨hseen₁, hseen₂⟩, .inl ⟨fault, rfl, hb₂⟩⟩
    | ok =>
      obtain ⟨mode, hx₂, hmode⟩ := hkept rfl
      obtain ⟨hseen₃, hend⟩ := runs_rename hb₂ hf hx₂ h
      refine ⟨forall_seen_append.2 ⟨hseen₁, forall_seen_append.2 ⟨hseen₂, hseen₃⟩⟩, ?_⟩
      rcases hend with hend | ⟨rfl, q, hd, he, hg, hrest⟩
      · exact .inl hend
      · refine .inr ⟨rfl, q, mode, hd, he, hg, hrest, fun old kept hold htold => ?_⟩
        refine hmode q old kept hd hold fun s hs => htold s ?_
        exact List.mem_append_right _ (List.mem_append_left _ hs)

/-- **Replacing a file, where anything may go wrong**, is all or nothing. -/
theorem runs_replace (hw : w.target = path) (h : Runs w (replace path content) d log r e) :
    AllOrNothing path d log r (fun _ new => new = content) e := by
  obtain ⟨made, x, log, rfl, hmade, h⟩ := h
  have first {y : Disk} (hy : During d (.makeTemporary (directoryOf path)) y) :
      y.at? path = d.at? path := congrArg (·.at? path) hy
  rcases hmade with ⟨temporary, t, rfl, hf, hfresh, ht, rfl⟩ | ⟨⟨fault, rfl⟩, rfl⟩
  · have hb : Beside t d (d.put t (.file [] Disk.newMode)) := by
      have hne : t ≠ [] := ne_nil_of_not_directory (by rw [hfresh]; simp)
      exact ⟨rfl, hfresh, ⟨[], _, get?_put_self hne d _⟩, fun q hq => get?_put_of_ne hq d _⟩
    have hpath : d.find path ≠ .ok t := hw ▸ ht
    change Runs w (fill temporary path content >>= _) _ _ _ _ at h
    obtain ⟨filling, log, filled, x, rfl, hfill, h⟩ := runs_bind_iff.1 h
    obtain ⟨hseen, hend⟩ := runs_fill hb hf hfill
    have shown {y : Disk} (hy : Beside t d y) : y.at? path = d.at? path := hy.at?_eq hpath
    rcases hend with ⟨fault, rfl, hb₁⟩ | ⟨rfl, hreplaced⟩
    · -- the file beside the others is removed, and nothing of it is left
      obtain ⟨_, e, log, rfl, rfl, rfl, rfl, rfl⟩ := h
      refine ⟨fun y hy => ?_, fun _ _ => hb₁.remove hf, nofun⟩
      rcases seen_cons.1 hy with hy | hy
      · exact first hy
      rcases seen_append.1 hy with hy | hy
      · exact shown (hseen y hy)
      · obtain rfl := seen_singleton.1 hy
        exact shown hb₁
    · obtain ⟨rfl, rfl, rfl⟩ := h
      rw [List.append_nil]
      refine ⟨fun y hy => ?_, nofun, fun _ _ => ⟨content, rfl, ?_⟩⟩
      · rcases seen_cons.1 hy with hy | hy
        · exact first hy
        · exact shown (hseen y hy)
      · exact hreplaced.of_log fun s hs => List.mem_cons_of_mem _ hs
  · obtain ⟨rfl, rfl, rfl⟩ := h
    exact ⟨fun y hy => first (seen_singleton.1 hy), fun _ _ => .refl _, nofun⟩

end Replacing

end LintHost
