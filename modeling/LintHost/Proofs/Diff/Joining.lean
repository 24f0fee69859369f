/-
LintHost/Proofs/Diff/Joining.lean

Rows in their compact form.  To join a run of deletions and insertions is to bring the
deletions to the front and to make one edit of each kind, which takes moves only
(`moves_filter`, `moves_joined`); so a compact row leads through both texts
(`stands_compact`), now with replacements among its edits.

Main result: wherever the insertions have been slid to, the first edit of a compact row
says that it stands at the start of the old text (`old_of_head_compact`).
-/
import LintHost.Proofs.Diff.Sliding
import Mathlib.Data.List.SplitBy

namespace LintHost.Diff

variable {α : Type} [DecidableEq α] {old new : List α} {i j i' j' : Nat} {run es : List Edit}

/-! ### Runs -/

/-- Whether an edit of a compact row does what its kind says at a place in each text. -/
inductive Stands (old new : List α) (i j : Nat) : Edit → Prop
  | plain {e : Edit} (h : Fits old new i j e) : Stands old new i j e
  | replace {m n : Nat} (opos : 0 < m) (npos : 0 < n) (ho : i + m ≤ old.length)
      (hn : j + n ≤ new.length) : Stands old new i j ⟨.replace, i, j, m, n⟩

/-- Edits of one kind become one edit. -/
theorem moves_joined {kind : Kind} (h : Covers old new i j run i' j')
    (hkind : ∀ e ∈ run, e.kind = kind) : Moves new run (joined run).toList := by
  cases run with
  | nil => exact .refl
  | cons e es =>
    show Moves new (e :: es) [es.foldl Edit.absorb e]
    induction es generalizing e with
    | nil => exact .refl
    | cons f es ih =>
      have hef : e.kind = f.kind := by rw [hkind e (by simp), hkind f (by simp)]
      have hmove := moves_absorb (a := []) h hef
      refine hmove.trans (ih _ (h.of_moves hmove) fun g hg => ?_)
      rcases List.mem_cons.1 hg with rfl | hg
      · exact hkind e List.mem_cons_self
      · exact hkind g (by simp [hg])

theorem joined_eq_none_iff : joined run = none ↔ run = [] := by
  cases run with
  | nil => exact ⟨fun _ => rfl, fun _ => rfl⟩
  | cons e es => simp [joined]

theorem kind_joined {kind : Kind} (hkind : ∀ e ∈ run, e.kind = kind) :
    ∀ e ∈ joined run, e.kind = kind := by
  have hfold : ∀ (es : List Edit) (e : Edit), (es.foldl Edit.absorb e).kind = e.kind := by
    intro es
    induction es with
    | nil => exact fun _ => rfl
    | cons f es ih => exact fun e => ih (e.absorb f)
  cases run with
  | nil => exact fun _ h => by cases h
  | cons e es =>
    intro f hf
    rw [← Option.some.inj hf, hfold]
    exact hkind e List.mem_cons_self

theorem Moves.cons {fs : List Edit} (h : Moves new es fs) (e : Edit) :
    Moves new (e :: es) (e :: fs) := by
  induction h with
  | refl => exact .refl
  | tail _ hstep ih =>
    obtain ⟨a, b, m, m', rfl, rfl, hm⟩ := hstep
    exact ih.trans (moves_of_move hm (e :: a) b)

/-- An insertion moves behind deletions. -/
theorem moves_past {e : Edit} {ds : List Edit} (h : Covers old new i j (e :: ds ++ es) i' j')
    (he : e.kind = .insert) (hds : ∀ d ∈ ds, d.kind = .delete) :
    Moves new (e :: ds ++ es) (ds ++ e :: es) := by
  induction ds generalizing i j with
  | nil => exact .refl
  | cons d ds ih =>
    have hd := hds d List.mem_cons_self
    have hswap := moves_swap (a := []) h (isKeep_eq_false he (by decide))
      (isKeep_eq_false hd (by decide)) (by rw [he, hd]; decide)
    exact hswap.trans ((ih (h.of_moves hswap).2 fun d hd => hds d (by simp [hd])).cons d)

/-- The deletions of a run come to the front. -/
theorem moves_filter (h : Covers old new i j run i' j') (hrun : ∀ e ∈ run, e.isKeep = false) :
    Moves new run (run.filter (·.kind == .delete) ++ run.filter (·.kind == .insert)) := by
  induction run generalizing i j with
  | nil => exact .refl
  | cons e run ih =>
    have hrest := (ih h.2 fun f hf => hrun f (by simp [hf])).cons e
    have he := hrun e List.mem_cons_self
    cases h.1 with
    | keep => cases he
    | delete => exact hrest
    | insert =>
      refine hrest.trans (moves_past (h.of_moves hrest) rfl fun d hd => ?_)
      simpa using (List.mem_filter.1 hd).2

omit [DecidableEq α] in
/-- A run that neither keeps nor deletes anything inserts. -/
theorem kind_eq_insert_of_filter_eq_nil (h : Covers old new i j run i' j')
    (hrun : ∀ e ∈ run, e.isKeep = false) (hnone : run.filter (·.kind == .delete) = []) :
    ∀ e ∈ run, e.kind = .insert := by
  intro e he
  have hk := hrun e he
  have hd := List.filter_eq_nil_iff.1 hnone e he
  obtain ⟨p, q, hfits⟩ := h.exists_fits e he
  cases hfits with
  | keep => cases hk
  | delete => exact absurd rfl hd
  | insert => rfl

/-- What becomes of a run: one edit that leads to the same places.  It is an insertion only if all
edits of the run are. -/
structure Joins (old new : List α) (i j : Nat) (run : List Edit) (i' j' : Nat) (e : Edit) :
    Prop where
  eq : joinRun run = [e]
  stands : Stands old new i j e
  inserts : e.kind = .insert → ∀ f ∈ run, f.kind = .insert
  old : i + e.oldCount = i'
  new : j + e.newCount = j'

theorem exists_joins_of_isKeep (h : Covers old new i j run i' j') (hne : run ≠ [])
    (hrun : ∀ e ∈ run, e.isKeep = true) : ∃ e, Joins old new i j run i' j' e := by
  have hkeep : ∀ e ∈ run, e.kind = .keep := fun e he => by simpa [Edit.isKeep] using hrun e he
  have hnone : ∀ {kind : Kind}, kind ≠ .keep → run.filter (·.kind == kind) = [] := by
    intro kind hk
    rw [List.filter_eq_nil_iff]
    intro e he
    rw [hkeep e he]
    simpa using Ne.symm hk
  obtain ⟨e, he⟩ : ∃ e, joined run = some e :=
    Option.ne_none_iff_exists'.1 fun hn => hne (joined_eq_none_iff.1 hn)
  have hjoined := h.of_moves (moves_joined h hkeep)
  rw [he] at hjoined
  have hkind := kind_joined hkeep e he
  refine ⟨e, ?_, .plain hjoined.1, fun hins => ?_, hjoined.2.1, hjoined.2.2⟩
  · rw [joinRun, hnone (by decide), hnone (by decide), he]
    rfl
  · rw [hkind] at hins
    cases hins

theorem exists_joins_of_edits (h : Covers old new i j run i' j') (hne : run ≠ [])
    (hrun : ∀ e ∈ run, e.isKeep = false) : ∃ e, Joins old new i j run i' j' e := by
  obtain ⟨p, q, hds, his⟩ := covers_append_iff.1 (h.of_moves (moves_filter h hrun))
  have hdelete : ∀ d ∈ run.filter (·.kind == .delete), d.kind = .delete := fun d hd => by
    simpa using (List.mem_filter.1 hd).2
  have hinsert : ∀ e ∈ run.filter (·.kind == .insert), e.kind = .insert := fun e he => by
    simpa using (List.mem_filter.1 he).2
  have hds' := hds.of_moves (moves_joined hds hdelete)
  have his' := his.of_moves (moves_joined his hinsert)
  have hd := kind_joined hdelete
  have hi := kind_joined hinsert
  have hall := kind_eq_insert_of_filter_eq_nil h hrun
  rcases ed : joined (run.filter (·.kind == .delete)) with - | d <;>
    rcases ei : joined (run.filter (·.kind == .insert)) with - | e <;>
    rw [ed] at hds' hd <;> rw [ei] at his' hi
  · -- a run that is not empty has an edit, and that is of one of both kinds
    rw [joined_eq_none_iff] at ed ei
    obtain ⟨e, he⟩ := List.exists_mem_of_ne_nil run hne
    exact absurd (beq_iff_eq.2 (hall ed e he)) (List.filter_eq_nil_iff.1 ei e he)
  · obtain ⟨rfl, rfl⟩ := hds'
    have hins : ∀ f ∈ run, f.kind = .insert := hall (joined_eq_none_iff.1 ed)
    exact ⟨e, by rw [joinRun, ed, ei], .plain his'.1, fun _ => hins, his'.2.1, his'.2.2⟩
  · obtain ⟨rfl, rfl⟩ := his'
    refine ⟨d, by rw [joinRun, ed, ei], .plain hds'.1, fun hins => ?_, hds'.2.1, hds'.2.2⟩
    rw [hd d rfl] at hins
    cases hins
  · obtain ⟨hdf, rfl, rfl⟩ := hds'
    obtain ⟨hef, rfl, rfl⟩ := his'
    obtain ⟨k, m, rfl⟩ := hdf.eq_delete (hd d rfl)
    obtain ⟨k', n, rfl⟩ := hef.eq_insert (hi e rfl)
    obtain ⟨-, hm, ho⟩ := fits_delete_iff.1 hdf
    obtain ⟨-, hn, hnn⟩ := fits_insert_iff.1 hef
    have hone : joinRun run = [⟨.replace, i, j, m, n⟩] := by
      rw [joinRun, ed, ei]
      rfl
    exact ⟨_, hone, .replace hm hn ho hnn, (fun hins => by cases hins), rfl, rfl⟩

/-- **A run becomes one edit** that leads to the same places. -/
theorem exists_joins (h : Covers old new i j run i' j') (hne : run ≠ []) {k : Bool}
    (hrun : ∀ e ∈ run, e.isKeep = k) : ∃ e, Joins old new i j run i' j' e := by
  cases k with
  | true => exact exists_joins_of_isKeep h hne hrun
  | false => exact exists_joins_of_edits h hne hrun

/-! ### Whole rows -/

/-- All edits of a run are kept, or none is. -/
theorem isKeep_of_mem_run (hrun : run ∈ es.splitBy fun a b => a.isKeep == b.isKeep) :
    ∃ k, ∀ e ∈ run, e.isKeep = k := by
  have hchain := List.isChain_of_mem_splitBy hrun
  clear hrun
  induction run with
  | nil => exact ⟨true, fun _ h => absurd h List.not_mem_nil⟩
  | cons e run ih =>
    cases run with
    | nil => exact ⟨e.isKeep, fun f hf => by rw [List.mem_singleton.1 hf]⟩
    | cons f run =>
      obtain ⟨hef, hrest⟩ := List.isChain_cons_cons.1 hchain
      obtain ⟨k, hk⟩ := ih hrest
      refine ⟨k, fun g hg => ?_⟩
      rcases List.mem_cons.1 hg with rfl | hg
      · rw [beq_iff_eq.1 hef]
        exact hk f List.mem_cons_self
      · exact hk g hg

/-- **Joining the runs** of a row leads to the same places. -/
theorem stands_joinRuns (h : Covers old new i j es i' j') :
    Along (Stands old new) i j (joinRuns es) i' j' := by
  have hruns : ∀ runs : List (List Edit), [] ∉ runs → (∀ run ∈ runs, ∃ k, ∀ e ∈ run, e.isKeep = k) →
      ∀ {i j}, Covers old new i j runs.flatten i' j' →
      Along (Stands old new) i j (runs.flatMap joinRun) i' j' := by
    intro runs
    induction runs with
    | nil => exact fun _ _ _ _ h => h
    | cons run runs ih =>
      intro hne hk i j h
      obtain ⟨p, q, hrun, hrest⟩ := covers_append_iff.1 h
      obtain ⟨k, hk'⟩ := hk run List.mem_cons_self
      obtain ⟨e, he, hstands, -, rfl, rfl⟩ := exists_joins hrun (fun he => hne (by simp [he])) hk'
      rw [List.flatMap_cons, he]
      exact ⟨hstands, ih (fun h => hne (by simp [h])) (fun r hr => hk r (by simp [hr])) hrest⟩
  rw [joinRuns]
  refine hruns _ (List.nil_notMem_splitBy _ _) (fun run hrun => isKeep_of_mem_run hrun) ?_
  rw [List.flatten_splitBy]
  exact h

/-- **A compact row** leads through both texts. -/
theorem stands_compact (old new : List α) :
    Along (Stands old new) 0 0 (compact new (edits old new)) old.length new.length :=
  have hcovers := (along_edits old new).covers
  stands_joinRuns (hcovers.of_moves (moves_slideBoth hcovers))

/-! ### The start of a compact row -/

/-- An insertion at the start of a row that has been joined is there before, and what follows it is
kept. -/
theorem head_joinRuns (h : Covers old new i j es i' j') (hsettled : Settled new es) {e : Edit}
    (he : e ∈ (joinRuns es).head?) (hkind : e.kind = .insert) :
    ∃ rest, es = e :: rest ∧ ∀ f ∈ rest.head?, f.isKeep = true := by
  have hflat := List.flatten_splitBy (fun a b : Edit => a.isKeep == b.isKeep) es
  have hnil := List.nil_notMem_splitBy (fun a b : Edit => a.isKeep == b.isKeep) es
  have hnext := List.isChain_getLast_head_splitBy (fun a b : Edit => a.isKeep == b.isKeep) es
  have hrun := fun run (hr : run ∈ es.splitBy _) => isKeep_of_mem_run hr
  rw [joinRuns] at he
  generalize es.splitBy (fun a b : Edit => a.isKeep == b.isKeep) = runs at *
  subst hflat
  cases runs with
  | nil => cases he
  | cons run runs =>
    have hne : run ≠ [] := fun hr => hnil (by simp [hr])
    obtain ⟨k, hk⟩ := hrun run List.mem_cons_self
    obtain ⟨p, q, hc, -⟩ := covers_append_iff.1 h
    obtain ⟨e', he', -, hins, -⟩ := exists_joins hc hne hk
    rw [List.flatMap_cons, he'] at he
    obtain rfl : e' = e := Option.some.inj he
    have hins := hins hkind
    -- two insertions in a row would not be settled
    match run, hins, hsettled, he' with
    | [f], hins, _, he' =>
      have hf : f.kind = .insert := hins f List.mem_cons_self
      obtain rfl : f = e' := by simpa [joinRun, joined, hf] using he'
      refine ⟨runs.flatten, rfl, fun g hg => ?_⟩
      cases runs with
      | nil => cases hg
      | cons next runs =>
        obtain ⟨⟨_, hb, hr⟩, -⟩ := List.isChain_cons_cons.1 hnext
        have hhead : next.head hb = g := by
          rw [List.flatten_cons, List.head?_append, List.head?_eq_some_head hb, Option.some_or]
            at hg
          exact Option.some.inj hg
        have hf' : f.isKeep = false := isKeep_eq_false hf (by decide)
        rw [hhead, List.getLast_singleton, hf'] at hr
        simpa using hr
    | f :: g :: _, hins, hsettled, _ =>
      exact absurd (hins g (by simp)) (hsettled (hins f (by simp))).1

/-- What happens first to the old text, as the first two edits tell. -/
theorem firstFate_of_head {e : Edit} {rest : List Edit} (he : e.kind = .insert)
    (hrest : ∀ f ∈ rest.head?, f.isKeep = true) :
    firstFate (e :: rest) = rest.head?.map (·.kind) := by
  have hskip : firstFate (e :: rest) = firstFate rest := by
    simp [firstFate, he]
  rw [hskip]
  cases rest with
  | nil => rfl
  | cons f rest =>
    have hf : f.kind = .keep := by simpa [Edit.isKeep] using hrest f rfl
    simp [firstFate, hf]

omit [DecidableEq α] in
theorem getElem?_eq_of_stretch_eq {s t : List α} {a b n : Nat} (pos : 0 < n)
    (h : stretch s a n = stretch t b n) : s[a]? = t[b]? := by
  have hfirst := congrArg (·[0]?) h
  simpa [stretch, pos] using hfirst

omit [DecidableEq α] in
theorem Stands.old_eq {e : Edit} (h : Stands old new i j e) (hk : e.kind ≠ .insert) :
    e.old = i := by
  cases h with
  | replace => rfl
  | plain h =>
    cases h with
    | keep => rfl
    | delete => rfl
    | insert => exact absurd rfl hk

/-- An insertion that has come to the start of a row, before kept elements or before nothing, was
at the start of the old text when it was found. -/
theorem old_of_settled {e : Edit} {rest : List Edit}
    (hplaced : Along (Placed old new) 0 0 es i' new.length) (hmoves : Moves new es (e :: rest))
    (hsettled : Settled new (e :: rest)) (hk : e.kind = .insert)
    (hrest : ∀ f ∈ rest.head?, f.isKeep = true) : e.old = 0 := by
  have hcovers := hplaced.covers.of_moves hmoves
  have hfate := firstFate_of_moves hmoves
  rw [firstFate_of_head hk hrest] at hfate
  -- what was first when the edits were found
  cases es with
  | nil =>
    obtain ⟨k, n, rfl⟩ := hcovers.1.eq_insert hk
    obtain ⟨-, hn, hnn, -⟩ := covers_insert_cons_iff.1 hcovers
    obtain ⟨-, hnew⟩ := hplaced
    omega
  | cons g es =>
    obtain ⟨hg, hgo, -⟩ := hplaced.1
    cases hg with
    | insert =>
      have htells : Tells 0 (e :: rest) := Tells.of_moves hmoves hgo
      rwa [Tells, if_pos hk] at htells
    | delete =>
      obtain ⟨f, hf, hfk⟩ := Option.map_eq_some_iff.1 hfate
      have hkeep := hrest f hf
      rw [Edit.isKeep, hfk] at hkeep
      cases hkeep
    | keep pos _ _ hsame =>
      -- the insertion would start with the element that both texts start with, which is also
      -- the first one that is kept behind it
      obtain ⟨f, hf, -⟩ := Option.map_eq_some_iff.1 hfate
      obtain ⟨rest, rfl⟩ := List.head?_eq_some_iff.1 hf
      obtain ⟨k, n, rfl⟩ := hcovers.1.eq_insert hk
      obtain ⟨-, -, -, hcovers⟩ := covers_insert_cons_iff.1 hcovers
      obtain ⟨m, rfl⟩ := hcovers.1.eq_keep (hrest f rfl)
      obtain ⟨-, -, hm, -, -, hsame', -⟩ := covers_keep_cons_iff.1 hcovers
      have hboth := getElem?_eq_of_stretch_eq pos hsame
      have hbehind := getElem?_eq_of_stretch_eq hm hsame'
      exact absurd (hbehind.symm.trans hboth) ((hsettled rfl).2 rfl)

/-- **The first edit of a compact row** says that it stands at the start of the old text. -/
theorem old_of_head_compact (old new : List α) :
    ∀ e ∈ (compact new (edits old new)).head?, e.old = 0 := by
  intro e he
  have hplaced := along_edits old new
  by_cases hk : e.kind = .insert
  · have hmoves := moves_slideBoth hplaced.covers
    have hsettled := settled_slideBoth hplaced.covers
    have hcovers := hplaced.covers.of_moves hmoves
    obtain ⟨rest, hrow, hrest⟩ := head_joinRuns hcovers hsettled he hk
    rw [hrow] at hmoves hsettled
    exact old_of_settled hplaced hmoves hsettled hk hrest
  · obtain ⟨rest, hrow⟩ := List.head?_eq_some_iff.1 he
    have hstands := stands_compact old new
    rw [hrow] at hstands
    exact hstands.1.old_eq hk

end LintHost.Diff
