/-
LintHost/Proofs/Storage/Directories.lean

Making the directories above a file.  Directories may be added and nothing else changes
(`Grown`), at whatever point the making of them stops.  A path that can be followed has
all its directories already, and then none is added (`makeAlong_of_find`).

A path that cannot be followed may lead somewhere once its directories are there, for it
may go back out of one of them by `..`.  One that does not go back leads to no file that
it did not lead to before (`Grown.file_iff`).
-/
import LintHost.Proofs.Path.Canonical
import LintHost.Proofs.Storage.Wholeness

namespace LintHost

open Storage

/-! ### The spelling of a directory -/

namespace Text

/-- Joining parts in two goes. -/
theorem joinWith_append {α : Type} (sep : List α) {a b : List (List α)} (ha : a ≠ [])
    (hb : b ≠ []) : joinWith sep (a ++ b) = joinWith sep a ++ sep ++ joinWith sep b := by
  induction a with
  | nil => exact absurd rfl ha
  | cons part a ih =>
    cases a with
    | nil =>
      obtain ⟨first, b, rfl⟩ := List.exists_cons_of_ne_nil hb
      simp [joinWith]
    | cons next a =>
      simp only [List.cons_append, joinWith] at ih ⊢
      rw [ih (List.cons_ne_nil _ _)]
      simp

end Text

namespace Path

theorem splitLeading_spec {path : Path} {head body : List UInt8}
    (h : path.splitLeading = (head, body)) : path.raw.bytes = head ++ body ∧
      (head = [] ∨ head = [separator] ∨
        head = [dot] ∧ (body = [] ∨ ∃ rest, body = separator :: rest)) := by
  unfold splitLeading at h
  split at h
  · next hb =>
    cases h
    exact ⟨hb, .inl rfl⟩
  · next b rest hb =>
    split at h
    · next hs =>
      cases h
      exact ⟨by rw [hb, hs]; rfl, .inr (.inl rfl)⟩
    · split at h
      · next hd =>
        cases h
        refine ⟨by rw [hb, hd.1]; rfl, .inr (.inr ⟨rfl, hd.2.imp_right fun hr => ?_⟩)⟩
        exact List.head?_eq_some_iff.1 hr
      · cases h
        exact ⟨hb, .inl rfl⟩

/-- A path goes on after its directory, unless that is the root. -/
theorem exists_bytes_of_directory? {path directory : Path} (h : path.directory? = some directory) :
    directory.raw.bytes = [separator] ∨
      ∃ more, path.raw.bytes = directory.raw.bytes ++ separator :: more := by
  unfold directory? at h
  obtain ⟨hparent, hne⟩ := Option.filter_eq_some_iff.1 h
  have hne : directory.raw.bytes ≠ [] := of_decide_eq_true hne
  unfold parent? at hparent
  rcases hsplit : path.splitLeading with ⟨head, body⟩
  obtain ⟨hbytes, hhead⟩ := splitLeading_spec hsplit
  rw [hsplit] at hparent
  dsimp only at hparent
  split at hparent
  · next last above hlast =>
    cases hparent
    dsimp only at hne ⊢
    have hbody : Text.joinWith [separator] (Text.splitOn separator body) = body :=
      Text.joinWith_splitOn separator body
    -- the parts of the body are those of the directory and some more
    obtain ⟨idle, hidle⟩ := List.dropWhile_suffix (l := (Text.splitOn separator body).reverse) isIdle
    obtain ⟨inner, hinner⟩ := List.dropWhile_suffix (l := above) isIdle
    have hparts : Text.splitOn separator body
        = (above.dropWhile isIdle).reverse ++ (inner.reverse ++ last :: idle.reverse) := by
      rw [hlast] at hidle
      have hreversed := congrArg List.reverse hidle
      rw [← hinner] at hreversed
      simpa using hreversed.symm
    by_cases hkept : (above.dropWhile isIdle).reverse = []
    · rw [hkept] at hne ⊢
      simp only [Text.joinWith, List.append_nil] at hne ⊢
      rcases hhead with rfl | rfl | ⟨rfl, rfl | ⟨rest, rfl⟩⟩
      · exact absurd rfl hne
      · exact .inl rfl
      · cases hlast
      · exact .inr ⟨rest, hbytes⟩
    · refine .inr ⟨Text.joinWith [separator] (inner.reverse ++ last :: idle.reverse), ?_⟩
      rw [hparts, Text.joinWith_append _ hkept (by simp)] at hbody
      rw [hbytes, ← hbody]
      simp only [List.append_assoc, List.singleton_append]
  · split at hparent
    · cases hparent
      exact absurd rfl hne
    · cases hparent

end Path

/-! ### Disks with more directories -/

namespace Storage.Disk

variable {d e x : Disk} {path directory : Path} {p here : Place}

/-- Whether a disk is another one with more directories. -/
structure Grown (d x : Disk) : Prop where
  current : x.current = d.current
  entry : ∀ p, x.get? p = d.get? p ∨ d.get? p = none ∧ x.get? p = some .directory

theorem Grown.refl (d : Disk) : Grown d d := ⟨rfl, fun _ => .inl rfl⟩

theorem Grown.trans (h : Grown d x) (h' : Grown x e) : Grown d e := by
  refine ⟨h'.current.trans h.current, fun p => ?_⟩
  rcases h.entry p with hp | ⟨hd, hx⟩
  · rw [← hp]
    exact h'.entry p
  · rcases h'.entry p with he | ⟨hx', -⟩
    · exact .inr ⟨hd, he.trans hx⟩
    · rw [hx] at hx'
      cases hx'

theorem Grown.passes (h : Grown d x) : Passes d x := by
  refine ⟨h.current, fun p hp => ?_⟩
  rcases h.entry p with hx | ⟨hd, -⟩
  · exact hx.trans hp
  · rw [hd] at hp
    cases hp

/-- Every file of the larger disk is one of the smaller. -/
theorem Grown.get?_file (h : Grown d x) {content : List UInt8} {mode : Nat}
    (hx : x.get? p = some (.file content mode)) : d.get? p = some (.file content mode) := by
  rcases h.entry p with hp | ⟨-, hp⟩
  · exact hp ▸ hx
  · rw [hx] at hp
    cases hp

theorem grown_put (h : d.get? p = none) : Grown d (d.put p .directory) := by
  have hne : p ≠ [] := ne_nil_of_not_directory (by rw [h]; simp)
  refine ⟨rfl, fun q => ?_⟩
  by_cases hq : q = p
  · rw [hq]
    exact .inr ⟨h, get?_put_self hne d _⟩
  · exact .inl (get?_put_of_ne hq d _)

/-- Making directories adds directories, however far it comes. -/
theorem grown_makeAlong (d : Disk) (here : Place) (segments : List (List UInt8)) :
    Grown d (d.makeAlong here segments).2 := by
  induction segments generalizing d here with
  | nil => exact .refl d
  | cons segment rest ih =>
    rw [makeAlong]
    split
    · exact .refl d
    · split
      · next hg => exact (grown_put hg).trans (ih _ _)
      · exact ih d _
      · exact .refl d

/-! ### Paths that can be followed -/

/-- Where every step can be taken and is not the last one, no directory is missing. -/
theorem makeAlong_of_foldlM {segments more : List (List UInt8)} (hmore : more ≠ [])
    (h : (segments ++ more).foldlM d.step here = .ok p) (k : Nat) :
    d.makeAlong here (segments.take k) = (.ok (), d) := by
  induction segments generalizing here k with
  | nil => simp [makeAlong]
  | cons segment rest ih =>
    cases k with
    | zero => simp [makeAlong]
    | succ k =>
      rw [List.cons_append, List.foldlM_cons, bind_eq_ok_iff] at h
      obtain ⟨next, hnext, h⟩ := h
      have hdirectory : d.get? next = some .directory := by
        obtain ⟨first, more', he⟩ : ∃ first more', rest ++ more = first :: more' :=
          List.exists_cons_of_ne_nil (by simp [hmore])
        rw [he, List.foldlM_cons, bind_eq_ok_iff] at h
        obtain ⟨_, hstep, -⟩ := h
        unfold step at hstep
        split at hstep
        · cases hstep
        · cases hstep
        · next hg => exact hg
      simp only [List.take_succ_cons, makeAlong, hnext, hdirectory]
      exact ih h k

theorem segments_eq_of_ok {along : List (List UInt8)} (h : segments path = .ok along) :
    along = Text.splitOn Path.separator path.raw.bytes := by
  unfold segments at h
  split at h
  · cases h
  split at h
  · cases h
  split at h
  · cases h
  · exact (Except.ok.inj h).symm

/-- A path that can be followed has all its directories. -/
theorem makeAlong_of_find (h : d.find path = .ok p) (hd : path.directory? = some directory)
    {along : List (List UInt8)} (ha : segments directory = .ok along) (k : Nat) :
    d.makeAlong (d.start directory) (along.take k) = (.ok (), d) := by
  obtain ⟨all, hall, hfind⟩ := find_eq_ok_iff.1 h
  obtain rfl := segments_eq_of_ok ha
  obtain rfl := segments_eq_of_ok hall
  rcases Path.exists_bytes_of_directory? hd with hroot | ⟨more, hmore⟩
  · -- the root is there, and both of its empty segments stay at it
    have hstart : d.start directory = [] := by simp [start, Path.isAbsolute, hroot]
    have halong : Text.splitOn Path.separator [Path.separator] = [[], []] := rfl
    rw [hstart, hroot, halong]
    rcases k with _ | _ | k
    · rfl
    · rfl
    · rw [List.take_of_length_le (by simp)]
      rfl
  · have hne : directory.raw.bytes ≠ [] :=
      of_decide_eq_true (Option.filter_eq_some_iff.1 hd).2
    have hstart : d.start directory = d.start path := by
      obtain ⟨c, rest, hc⟩ := List.exists_cons_of_ne_nil hne
      rw [hc] at hmore
      simp [start, Path.isAbsolute, hmore, hc]
    rw [hmore, Text.splitOn_append_cons] at hfind
    rw [hstart]
    exact makeAlong_of_foldlM (Text.splitOn_ne_nil _ _) hfind k

/-! ### Paths that do not go back -/

/-- Whether all that a disk holds is in directories. -/
def IsTree (d : Disk) : Prop :=
  ∀ (p : Place) name x, d.get? (p ++ [name]) = some x → d.get? p = some .directory

theorem IsTree.directory_of_prefix (h : IsTree d) {names : List RawText} {x : Entry}
    (hn : names ≠ []) (hx : d.get? (here ++ names) = some x) :
    d.get? here = some .directory := by
  induction names generalizing here with
  | nil => exact absurd rfl hn
  | cons name names ih =>
    cases names with
    | nil => exact h _ _ _ hx
    | cons next names =>
      rw [List.append_cons] at hx
      exact h _ _ _ (ih (List.cons_ne_nil _ _) hx)

theorem step_of_not_up {next : Place} {segment : List UInt8} (h : d.step here segment = .ok next)
    (hup : segment ≠ [Path.dot, Path.dot]) :
    d.get? here = some .directory ∧ (next = here ∨ ∃ name, next = here ++ [name]) := by
  unfold step at h
  split at h
  · cases h
  · cases h
  · next hg =>
    refine ⟨hg, ?_⟩
    rw [if_neg hup] at h
    split at h
    · exact .inl (Except.ok.inj h).symm
    · split at h
      · cases h
      · exact .inr ⟨_, (Except.ok.inj h).symm⟩

/-- Steps that do not go back and that lead to an old file are taken without the new directories
too. -/
theorem Grown.foldlM_step (h : Grown d x) (ht : IsTree d) {content : List UInt8} {mode : Nat}
    (hp : d.get? p = some (.file content mode)) {segments : List (List UInt8)}
    (hup : [Path.dot, Path.dot] ∉ segments) (hx : segments.foldlM x.step here = .ok p) :
    (∃ names, p = here ++ names) ∧ segments.foldlM d.step here = .ok p := by
  induction segments generalizing here with
  | nil => exact ⟨⟨[], by simpa using (Except.ok.inj hx).symm⟩, hx⟩
  | cons segment rest ih =>
    rw [List.foldlM_cons, bind_eq_ok_iff] at hx
    obtain ⟨next, hstep, hx⟩ := hx
    have hsegment : segment ≠ [Path.dot, Path.dot] := fun he => hup (he ▸ List.mem_cons_self)
    obtain ⟨hdirectory, hnext⟩ := step_of_not_up hstep hsegment
    obtain ⟨⟨names, hnames⟩, hrest⟩ := ih (fun hm => hup (List.mem_cons_of_mem _ hm)) hx
    have hunder : ∃ names, p = here ++ names := by
      rcases hnext with rfl | ⟨name, rfl⟩
      · exact ⟨names, hnames⟩
      · exact ⟨name :: names, by rw [hnames, List.append_assoc]; rfl⟩
    refine ⟨hunder, ?_⟩
    obtain ⟨below, hbelow⟩ := hunder
    -- the file is below this place, or it would be no directory in the larger disk
    have hold : d.get? here = some .directory := by
      by_cases hempty : below = []
      · rw [hempty, List.append_nil] at hbelow
        rcases h.entry here with he | ⟨hnone, -⟩
        · rw [← he, hdirectory]
        · rw [hbelow, hnone] at hp
          cases hp
      · exact ht.directory_of_prefix hempty (hbelow ▸ hp)
    rw [List.foldlM_cons, bind_eq_ok_iff]
    refine ⟨next, ?_, hrest⟩
    unfold step at hstep ⊢
    rw [hdirectory] at hstep
    rw [hold]
    exact hstep

/-- **A path that does not go back leads to the same file, if to any, with more directories.** -/
theorem Grown.file_iff (h : Grown d x) (ht : IsTree d)
    (hup : [Path.dot, Path.dot] ∉ Text.splitOn Path.separator path.raw.bytes) {content : List UInt8} {mode : Nat} :
    x.at? path = some (.file content mode) ↔ d.at? path = some (.file content mode) := by
  unfold at?
  constructor
  · intro hx
    rcases hfind : x.find path with fault | p
    · rw [hfind] at hx
      cases hx
    · rw [hfind] at hx
      have hp : d.get? p = some (.file content mode) := h.get?_file hx
      obtain ⟨along, hs, hfold⟩ := find_eq_ok_iff.1 hfind
      have hstart : x.start path = d.start path := by rw [start, start, h.current]
      rw [hstart] at hfold
      have hd : d.find path = .ok p := find_eq_ok_iff.2
        ⟨along, hs, (h.foldlM_step ht hp (segments_eq_of_ok hs ▸ hup) hfold).2⟩
      rw [hd]
      exact hp
  · intro hd
    rcases hfind : d.find path with fault | p
    · rw [hfind] at hd
      cases hd
    · rw [hfind] at hd
      have hp : d.get? p = some (.file content mode) := hd
      rw [h.passes.find hfind]
      rcases h.entry p with he | ⟨hnone, -⟩
      · exact he.trans hp
      · rw [hnone] at hp
        cases hp

end Storage.Disk

end LintHost
