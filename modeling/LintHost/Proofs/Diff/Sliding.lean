/-
LintHost/Proofs/Diff/Sliding.lean

Going through a row of edits and sliding each one to its last place.  All that is done
on the way is moves (`moves_slideBoth`).  Every insertion that has been looked at stands
at the end or in front of something that it cannot move over, so in the end one that
opens the row differs at its start from what is kept behind it (`settled_slideBoth`).
-/
import LintHost.Proofs.Diff.Moves

namespace LintHost.Diff

variable {α : Type} [DecidableEq α] {old new : List α} {i j i' j' : Nat}

/-! ### Going through a row -/

/-- The row around a place. -/
def Focus.row (f : Focus) : List Edit :=
  f.before.reverse ++ f.here :: f.after

variable {e here : Edit} {before after rest a : List Edit} {n : Nat}

theorem row_cons (e here : Edit) (before after : List Edit) :
    Focus.row ⟨e :: before, here, after⟩ = before.reverse ++ e :: here :: after := by
  simp [Focus.row]

theorem moves_keepBehind (e here : Edit) {i₁ j₁ : Nat}
    (h : Covers old new i j (a ++ .keep i₁ j₁ n :: after) i' j')
    (hi : i₁ = e.old + e.oldCount - n) (hj : j₁ = here.new + here.newCount - n) :
    Moves new (a ++ .keep i₁ j₁ n :: after) (a ++ keepBehind e here n after) := by
  subst hi hj
  cases after with
  | nil => exact .refl
  | cons f after =>
    simp only [keepBehind]
    split
    · next hk =>
      obtain ⟨p, q, -, h⟩ := covers_append_iff.1 h
      obtain ⟨hp, hq, -, -, -, -, hf, -⟩ := covers_keep_cons_iff.1 h
      obtain ⟨k, rfl⟩ := hf.eq_keep hk
      rw [hp, hq]
      have hgrown : ((Edit.keep (p + n) (q + n) k).back n).grow n = .keep p q (n + k) := by
        simp [Edit.back, Edit.grow, Edit.keep, Nat.add_comm]
      rw [hgrown]
      exact moves_of_move .joinKeeps a after
    · exact .refl

/-- An insertion that can move over kept elements does. -/
theorem moves_back (h : Covers old new i j (rest.reverse ++ e :: here :: after) i' j')
    (hk : e.isKeep = true) (hn : slack new e here = n) (pos : 0 < n) :
    Moves new (rest.reverse ++ e :: here :: after)
      (Focus.row ⟨if e.size = 2 * n then rest else e.shrink n :: rest, here.back n,
        keepBehind e here n after⟩) := by
  have hinsert : here.kind = .insert := by
    by_contra hkind
    rw [slack, if_neg hkind] at hn
    omega
  obtain ⟨p, q, -, he, hhere, -⟩ := covers_append_iff.1 h
  obtain ⟨k, rfl⟩ := he.eq_keep hk
  obtain ⟨c, m, rfl⟩ := hhere.eq_insert hinsert
  have hshared : n ≤ sharedEnd (stretch new q k) (stretch new (q + k) m) := Nat.le_of_eq hn.symm
  have hup := moves_of_move (.up (a := p) (c := c) pos hshared) rest.reverse after
  have hnk : n ≤ k := hn ▸ slack_le new (.keep p q k) _
  have hfront : (if (Edit.keep p q k).size = 2 * n then rest
      else (Edit.keep p q k).shrink n :: rest).reverse = rest.reverse ++ kept p q (k - n) := by
    have hsize : (Edit.keep p q k).size = k + k := rfl
    rw [hsize, kept]
    by_cases hkn : k = n
    · rw [if_pos (by omega), if_pos (by omega), List.append_nil]
    · rw [if_neg (by omega), if_neg (by omega), List.reverse_cons]
      rfl
  have hrow : rest.reverse ++ (kept p q (k - n) ++
        [.insert (c - n) (q + k - n) m, .keep (p + k - n) (q + k + m - n) n] ++ after)
      = (rest.reverse ++ kept p q (k - n) ++ [.insert (c - n) (q + k - n) m])
        ++ .keep (p + k - n) (q + k + m - n) n :: after := by
    simp
  rw [hrow] at hup
  have hbehind := moves_keepBehind (.keep p q k) (.insert c (q + k) m)
    (h.of_moves hup) rfl rfl
  rw [List.append_assoc (rest.reverse ++ _) [_] (keepBehind _ _ _ _), List.singleton_append]
    at hbehind
  rw [Focus.row, hfront]
  exact hup.trans hbehind

theorem moves_keepBefore (e here : Edit) {i₁ j₁ : Nat}
    (h : Covers old new i j (before.reverse ++ .keep i₁ j₁ n :: after) i' j')
    (hi : i₁ = e.old) (hj : j₁ = here.new) :
    Moves new (before.reverse ++ .keep i₁ j₁ n :: after)
      ((keepBefore here e n before).reverse ++ after) := by
  subst hi hj
  cases before with
  | nil => exact .refl
  | cons f before =>
    rw [List.reverse_cons, List.append_assoc, List.singleton_append] at h ⊢
    simp only [keepBefore]
    split
    · next hk =>
      obtain ⟨p, q, -, hf, -⟩ := covers_append_iff.1 h
      obtain ⟨k, rfl⟩ := hf.eq_keep hk
      rw [List.reverse_cons, List.append_assoc]
      exact moves_of_move .joinKeeps before.reverse after
    · rw [List.reverse_cons, List.reverse_cons, List.append_assoc, List.append_assoc]
      exact .refl

/-- An insertion that can move over kept elements behind it does. -/
theorem moves_forth (h : Covers old new i j (before.reverse ++ here :: e :: rest) i' j')
    (hk : e.isKeep = true) (hn : slackBehind new here e = n) (pos : 0 < n) :
    Moves new (before.reverse ++ here :: e :: rest)
      (Focus.row ⟨keepBefore here e n before, here.forth n,
        if e.oldCount = n then rest else (e.forth n).shrink n :: rest⟩) := by
  have hinsert : here.kind = .insert := by
    by_contra hkind
    rw [slackBehind, if_neg hkind] at hn
    omega
  obtain ⟨p, q, -, hhere, he, -⟩ := covers_append_iff.1 h
  obtain ⟨c, m, rfl⟩ := hhere.eq_insert hinsert
  obtain ⟨k, rfl⟩ : ∃ k, e = .keep p (q + m) k := he.eq_keep hk
  have hshared : n ≤ sharedStart (stretch new (q + m) k) (stretch new q m) := Nat.le_of_eq hn.symm
  have hdown := moves_of_move (.down (a := p) (c := c) pos hshared) before.reverse rest
  have hnk : n ≤ k := hn ▸ slackBehind_le new _ (.keep p (q + m) k)
  have hback : (if (Edit.keep p (q + m) k).oldCount = n then rest
      else ((Edit.keep p (q + m) k).forth n).shrink n :: rest)
      = kept (p + n) (q + m + n) (k - n) ++ rest := by
    have hcount : (Edit.keep p (q + m) k).oldCount = k := rfl
    rw [hcount, kept]
    by_cases hkn : k = n
    · rw [if_pos hkn, if_pos (by omega), List.nil_append]
    · rw [if_neg hkn, if_neg (by omega)]
      rfl
  have hrow : before.reverse ++ ([.keep p q n, .insert (c + n) (q + n) m]
        ++ kept (p + n) (q + m + n) (k - n) ++ rest)
      = before.reverse ++ .keep p q n ::
        .insert (c + n) (q + n) m :: (kept (p + n) (q + m + n) (k - n) ++ rest) := by
    simp
  rw [hrow] at hdown
  have hbefore := moves_keepBefore (.keep p (q + m) k) (.insert c q m)
    (h.of_moves hdown) rfl rfl
  rw [Focus.row, hback]
  exact hdown.trans hbefore

/-- Neighbours of one kind become one edit. -/
theorem moves_absorb {f : Edit} (h : Covers old new i j (a ++ e :: f :: after) i' j')
    (hkind : e.kind = f.kind) :
    Moves new (a ++ e :: f :: after) (a ++ e.absorb f :: after) := by
  obtain ⟨p, q, -, hfe, hff, -⟩ := covers_append_iff.1 h
  cases hfe with
  | keep =>
    obtain ⟨n, rfl⟩ := hff.eq_keep (by rw [Edit.isKeep, ← hkind]; rfl)
    exact moves_of_move .joinKeeps a after
  | delete =>
    obtain ⟨c, n, rfl⟩ := hff.eq_delete hkind.symm
    exact moves_of_move .joinDeletes a after
  | insert =>
    obtain ⟨c, n, rfl⟩ := hff.eq_insert hkind.symm
    exact moves_of_move .joinInserts a after

/-- A deletion and an insertion change places. -/
theorem moves_swap {f : Edit} (h : Covers old new i j (a ++ e :: f :: after) i' j')
    (he : e.isKeep = false) (hf : f.isKeep = false) (hkind : e.kind ≠ f.kind) :
    Moves new (a ++ e :: f :: after) (a ++ f :: e :: after) := by
  obtain ⟨p, q, -, hfe, hff, -⟩ := covers_append_iff.1 h
  cases hfe with
  | keep => cases he
  | delete =>
    cases hff with
    | keep => cases hf
    | delete => exact absurd rfl hkind
    | insert => exact moves_of_move .insertFirst a after
  | insert =>
    cases hff with
    | keep => cases hf
    | delete => exact moves_of_move .deleteFirst a after
    | insert => exact absurd rfl hkind

/-- **What sliding towards the start keeps**, if each of its steps does: moving over kept elements,
dropping an edit that keeps nothing, and meeting an edit of the same or of another kind.  It ends at
the start or behind kept elements. -/
theorem slideUp_induct {I : Focus → Prop}
    (back : ∀ e rest here after n, e.isKeep = true → slack new e here = n → 0 < n →
      I ⟨e :: rest, here, after⟩ → I ⟨if e.size = 2 * n then rest else e.shrink n :: rest,
        here.back n, keepBehind e here n after⟩)
    (drop : ∀ e rest here after, e.isKeep = true → e.size = 0 →
      I ⟨e :: rest, here, after⟩ → I ⟨rest, here, after⟩)
    (absorb : ∀ e rest here after, e.isKeep = false → e.kind = here.kind →
      I ⟨e :: rest, here, after⟩ → I ⟨rest, e.absorb here, after⟩)
    (swap : ∀ e rest here after, e.isKeep = false → e.kind ≠ here.kind →
      I ⟨e :: rest, here, after⟩ → I ⟨rest, here, e :: after⟩)
    (h : I ⟨before, here, after⟩) :
    I (slideUp new before here after) ∧
      ∀ e ∈ (slideUp new before here after).before.head?, e.isKeep = true := by
  induction before, here, after using slideUp.induct new with
  | case1 here after =>
    rw [slideUp]
    exact ⟨h, fun _ he => by cases he⟩
  | case2 here after e rest hk n pos ih =>
    rw [slideUp, if_pos hk]
    dsimp only
    rw [if_pos pos]
    exact ih (back e rest here after n hk rfl pos h)
  | case3 here after e rest hk n pos hsize ih =>
    rw [slideUp, if_pos hk]
    dsimp only
    rw [if_neg pos, if_pos hsize]
    exact ih (drop e rest here after hk hsize h)
  | case4 here after e rest hk n pos hsize =>
    rw [slideUp, if_pos hk]
    dsimp only
    rw [if_neg pos, if_neg hsize]
    refine ⟨h, fun f hf => ?_⟩
    rw [List.head?_cons, Option.mem_some] at hf
    rwa [← hf]
  | case5 here after e rest hk hkind ih =>
    rw [slideUp, if_neg hk, if_pos hkind]
    exact ih (absorb e rest here after (by simpa using hk) hkind h)
  | case6 here after e rest hk hkind ih =>
    rw [slideUp, if_neg hk, if_neg hkind]
    exact ih (swap e rest here after (by simpa using hk) hkind h)

/-- **What sliding towards the end keeps**, if each of its steps does.  It ends at the end or in
front of kept elements that it cannot move over. -/
theorem slideDown_induct {I : Focus → Prop}
    (forth : ∀ e rest before here n, e.isKeep = true → slackBehind new here e = n → 0 < n →
      I ⟨before, here, e :: rest⟩ → I ⟨keepBefore here e n before, here.forth n,
        if e.oldCount = n then rest else (e.forth n).shrink n :: rest⟩)
    (drop : ∀ e rest before here, e.isKeep = true → e.size = 0 →
      I ⟨before, here, e :: rest⟩ → I ⟨before, here, rest⟩)
    (absorb : ∀ e rest before here, e.isKeep = false → e.kind = here.kind →
      I ⟨before, here, e :: rest⟩ → I ⟨before, here.absorb e, rest⟩)
    (swap : ∀ e rest before here, e.isKeep = false → e.kind ≠ here.kind →
      I ⟨before, here, e :: rest⟩ → I ⟨e :: before, here, rest⟩)
    (h : I ⟨before, here, after⟩) :
    I (slideDown new before here after) ∧
      ∀ e ∈ (slideDown new before here after).after.head?,
        e.isKeep = true ∧ slackBehind new (slideDown new before here after).here e = 0 := by
  induction before, here, after using slideDown.induct new with
  | case1 before here =>
    rw [slideDown]
    exact ⟨h, fun _ he => by cases he⟩
  | case2 before here e rest hk n pos ih =>
    rw [slideDown, if_pos hk]
    dsimp only
    rw [if_pos pos]
    exact ih (forth e rest before here n hk rfl pos h)
  | case3 before here e rest hk n pos hsize ih =>
    rw [slideDown, if_pos hk]
    dsimp only
    rw [if_neg pos, if_pos hsize]
    exact ih (drop e rest before here hk hsize h)
  | case4 before here e rest hk n pos hsize =>
    rw [slideDown, if_pos hk]
    dsimp only
    rw [if_neg pos, if_neg hsize]
    refine ⟨h, fun f hf => ?_⟩
    rw [List.head?_cons, Option.mem_some] at hf
    rw [← hf]
    exact ⟨hk, Nat.eq_zero_of_not_pos pos⟩
  | case5 before here e rest hk hkind ih =>
    rw [slideDown, if_neg hk, if_pos hkind]
    exact ih (absorb e rest before here (by simpa using hk) hkind h)
  | case6 before here e rest hk hkind ih =>
    rw [slideDown, if_neg hk, if_neg hkind]
    exact ih (swap e rest before here (by simpa using hk) hkind h)

theorem stop_slideDown (new : List α) (before : List Edit) (here : Edit) (after : List Edit) :
    ∀ e ∈ (slideDown new before here after).after.head?,
      e.isKeep = true ∧ slackBehind new (slideDown new before here after).here e = 0 :=
  (slideDown_induct (I := fun _ => True) (fun _ _ _ _ _ _ _ _ _ => trivial)
    (fun _ _ _ _ _ _ _ => trivial) (fun _ _ _ _ _ _ _ => trivial)
    (fun _ _ _ _ _ _ _ => trivial) trivial).2

/-! ### Rows that are gone through -/

/-- What is known of a row while an edit of it is slid: it leads to the same places as the row that
it was, and has come from it by moves. -/
structure Slid (old new : List α) (i j i' j' : Nat) (kind : Kind) (row : List Edit) (f : Focus) :
    Prop where
  covers : Covers old new i j f.row i' j'
  moves : Moves new row f.row
  kind : f.here.kind = kind

variable {row : List Edit} {kind : Kind}

theorem Slid.step {f g : Focus} (h : Slid old new i j i' j' kind row f)
    (hm : Moves new f.row g.row) (hkind : g.here.kind = kind) :
    Slid old new i j i' j' kind row g where
  covers := h.covers.of_moves hm
  moves := h.moves.trans hm
  kind := hkind

theorem isKeep_eq_false {e : Edit} (h : e.kind = kind) (hkind : kind ≠ .keep) :
    e.isKeep = false := by
  rw [← h] at hkind
  simpa [Edit.isKeep] using hkind

theorem Slid.up {f : Focus} (h : Slid old new i j i' j' kind row f) (hkind : kind ≠ .keep) :
    Slid old new i j i' j' kind row (slideUp new f.before f.here f.after) := by
  refine (slideUp_induct (I := Slid old new i j i' j' kind row) ?_ ?_ ?_ ?_ h).1
  · intro e rest here after n hk hn pos h
    refine h.step ?_ h.kind
    have hc := h.covers
    rw [row_cons] at hc ⊢
    exact moves_back hc hk hn pos
  · intro e rest here after hk hsize h
    have hc := h.covers
    rw [row_cons] at hc
    obtain ⟨p, q, -, he, -⟩ := covers_append_iff.1 hc
    exact absurd hsize (Nat.ne_of_gt he.size_pos)
  · intro e rest here after _ hsame h
    refine h.step ?_ (hsame.trans h.kind)
    have hc := h.covers
    rw [row_cons] at hc ⊢
    exact moves_absorb hc hsame
  · intro e rest here after hk hother h
    refine h.step ?_ h.kind
    have hc := h.covers
    rw [row_cons] at hc ⊢
    exact moves_swap hc hk (isKeep_eq_false h.kind hkind) hother

theorem Slid.down {f : Focus} (h : Slid old new i j i' j' kind row f) (hkind : kind ≠ .keep) :
    Slid old new i j i' j' kind row (slideDown new f.before f.here f.after) := by
  refine (slideDown_induct (I := Slid old new i j i' j' kind row) ?_ ?_ ?_ ?_ h).1
  · intro e rest before here n hk hn pos h
    exact h.step (moves_forth h.covers hk hn pos) h.kind
  · intro e rest before here hk hsize h
    obtain ⟨p, q, -, -, he, -⟩ := covers_append_iff.1 h.covers
    exact absurd hsize (Nat.ne_of_gt he.size_pos)
  · intro e rest before here _ hsame h
    exact h.step (moves_absorb h.covers hsame.symm) h.kind
  · intro e rest before here hk hother h
    refine h.step ?_ h.kind
    rw [row_cons]
    exact moves_swap h.covers (isKeep_eq_false h.kind hkind) hk hother.symm

/-- **Going through a row** and sliding the edits of one kind takes moves only. -/
theorem moves_slideAll (hkind : kind ≠ .keep) (fuel : Nat) (before : List Edit)
    (h : Covers old new i j (before.reverse ++ after) i' j') :
    Moves new (before.reverse ++ after) (slideAll new kind fuel before after) := by
  induction fuel generalizing before after with
  | zero => exact .refl
  | succ fuel ih =>
    cases after with
    | nil =>
      rw [slideAll, List.append_nil]
    | cons e after =>
      rw [slideAll]
      split
      · next hk =>
        have hslid : Slid old new i j i' j' kind (before.reverse ++ e :: after)
            ⟨before, e, after⟩ := ⟨h, .refl, hk⟩
        have hdown := (hslid.up hkind).down hkind
        have hrow : ∀ f : Focus, (f.here :: f.before).reverse ++ f.after = f.row := by
          intro f
          rw [List.reverse_cons, List.append_assoc]
          rfl
        have hrest := ih (_ :: _) (by
          rw [hrow]
          exact hdown.covers)
        rw [hrow] at hrest
        exact hdown.moves.trans hrest
      · have h : Covers old new i j ((e :: before).reverse ++ after) i' j' := by
          rwa [List.reverse_cons, List.append_assoc]
        have hrest := ih (e :: before) h
        rwa [List.reverse_cons, List.append_assoc] at hrest

/-- **Sliding all edits** takes moves only. -/
theorem moves_slideBoth {es : List Edit} (h : Covers old new i j es i' j') :
    Moves new es (slideBoth new es) := by
  have hdeletes : Moves new es (slideAll new .delete (bound es) [] es) :=
    moves_slideAll (by decide) (bound es) [] h
  have hinserts : Moves new _ (slideBoth new es) :=
    moves_slideAll (by decide) (bound _) [] (h.of_moves hdeletes)
  exact hdeletes.trans hinserts

/-! ### Insertions at the start -/

/-- Whether a row that opens with an insertion goes on with no other one, and with kept elements
only if these start with another element. -/
def Settled (new : List α) : List Edit → Prop
  | e :: f :: _ =>
    e.kind = .insert → f.kind ≠ .insert ∧ (f.isKeep = true → new[f.new]? ≠ new[e.new]?)
  | _ => True

omit [DecidableEq α] in
theorem Settled.of_append {ys : List Edit} (h : Settled new (a ++ ys)) : Settled new a := by
  match a, h with
  | [], _ => trivial
  | [_], _ => trivial
  | _ :: _ :: _, h => exact h

omit [DecidableEq α] in
/-- The last of some edits may get another length. -/
theorem Settled.concat_congr {f : Edit} (h : Settled new (a ++ [e])) (hkind : f.kind = e.kind)
    (hnew : f.new = e.new) : Settled new (a ++ [f]) := by
  match a, h with
  | [], _ => trivial
  | [g], h =>
    intro hg
    rw [hkind, hnew, Edit.isKeep, hkind]
    exact h hg
  | _ :: _ :: _, h => exact h

omit [DecidableEq α] in
/-- Anything may come behind an edit that is no insertion. -/
theorem Settled.concat {f : Edit} (h : Settled new before.reverse)
    (htop : ∀ e ∈ before.head?, e.kind ≠ .insert) : Settled new (before.reverse ++ [f]) := by
  rcases before.reverse.eq_nil_or_concat with hrev | ⟨a, x, hrev⟩
  · rw [hrev]
    trivial
  · rw [List.concat_eq_append] at hrev
    rw [hrev] at h ⊢
    match a, hrev, h with
    | [], hrev, _ =>
      obtain rfl : before = [x] := by simpa using congrArg List.reverse hrev
      intro hx
      exact absurd hx (htop x rfl)
    | [_], _, h => exact h
    | _ :: _ :: _, _, h => exact h

omit [DecidableEq α] in
theorem Settled.append_of_cons {ys : List Edit} {f : Edit} (h : Settled new (before.reverse ++ [f]))
    (hne : before ≠ []) : Settled new (before.reverse ++ f :: ys) := by
  match hrev : before.reverse with
  | [] => exact absurd (List.reverse_eq_nil_iff.1 hrev) hne
  | [x] =>
    rw [hrev] at h
    exact h
  | _ :: _ :: _ =>
    rw [hrev] at h
    exact h

/-- Sliding towards the start changes no more than the last edit before the place. -/
theorem settled_slideUp (here : Edit) (after : List Edit) (h : Settled new before.reverse) :
    Settled new (slideUp new before here after).before.reverse ∧
      ∀ e ∈ (slideUp new before here after).before.head?, e.isKeep = true := by
  have hrest : ∀ {e rest}, Settled new (e :: rest : List Edit).reverse →
      Settled new rest.reverse := by
    intro e rest h
    rw [List.reverse_cons] at h
    exact h.of_append
  refine slideUp_induct (I := fun f => Settled new f.before.reverse) ?_ ?_ ?_ ?_ h
  · intro e rest here after n _ _ _ h
    dsimp only
    split
    · exact hrest h
    · rw [List.reverse_cons] at h ⊢
      exact h.concat_congr rfl rfl
  · exact fun _ _ _ _ _ _ h => hrest h
  · exact fun _ _ _ _ _ _ h => hrest h
  · exact fun _ _ _ _ _ _ h => hrest h

/-- Sliding an insertion towards the end puts no other one behind what is before it. -/
theorem settled_slideDown (hhere : here.kind = .insert) (after : List Edit)
    (h : Settled new before.reverse) (htop : ∀ e ∈ before.head?, e.kind ≠ .insert) :
    Settled new (slideDown new before here after).before.reverse ∧
      ∀ e ∈ (slideDown new before here after).before.head?, e.kind ≠ .insert := by
  refine (slideDown_induct (I := fun f => f.here.kind = .insert ∧ Settled new f.before.reverse ∧
    ∀ e ∈ f.before.head?, e.kind ≠ .insert) ?_ ?_ ?_ ?_ ⟨hhere, h, htop⟩).1.2
  · rintro e rest before here n hk - - ⟨hhere, h, htop⟩
    refine ⟨hhere, ?_⟩
    cases before with
    | nil => exact ⟨trivial, by simp [keepBefore, Edit.keep]⟩
    | cons f before =>
      dsimp only [keepBefore]
      split
      · next hf =>
        rw [List.reverse_cons] at h ⊢
        refine ⟨h.concat_congr rfl rfl, fun g hg => ?_⟩
        rw [List.head?_cons, Option.mem_some] at hg
        rw [← hg]
        exact htop f rfl
      · rw [List.reverse_cons (a := Edit.keep _ _ _)]
        exact ⟨h.concat htop, by simp [Edit.keep]⟩
  · exact fun _ _ _ _ _ _ h => h
  · exact fun _ _ _ _ _ _ h => h
  · rintro e rest before here hk hother ⟨hhere, h, htop⟩
    refine ⟨hhere, ?_, fun f hf => ?_⟩
    · rw [List.reverse_cons]
      exact h.concat htop
    · rw [List.head?_cons, Option.mem_some] at hf
      rw [← hf, ← hhere]
      exact hother

omit [DecidableEq α] in
theorem stretch_eq_cons {s : List α} {b k : Nat} (hb : b < s.length) (hk : 0 < k) :
    stretch s b k = s[b] :: stretch s (b + 1) (k - 1) := by
  obtain ⟨k, rfl⟩ := Nat.exists_eq_succ_of_ne_zero (Nat.ne_of_gt hk)
  rw [stretch, List.drop_eq_getElem_cons hb, List.take_succ_cons]
  rfl

/-- Stretches that start with the same element share it. -/
theorem sharedStart_pos {s : List α} {b k d m : Nat} (hb : b < s.length) (hd : d < s.length)
    (hk : 0 < k) (hm : 0 < m) (h : s[b]? = s[d]?) :
    0 < sharedStart (stretch s b k) (stretch s d m) := by
  rw [List.getElem?_eq_getElem hb, List.getElem?_eq_getElem hd, Option.some.injEq] at h
  rw [stretch_eq_cons hb hk, stretch_eq_cons hd hm, sharedStart, if_pos h]
  exact Nat.succ_pos _

/-- An insertion that cannot move over the kept elements behind it starts with another element. -/
theorem ne_of_slackBehind_eq_zero {p q : Nat} {es : List Edit}
    (h : Covers old new p q (here :: e :: es) i' j') (hhere : here.kind = .insert)
    (he : e.isKeep = true) (hn : slackBehind new here e = 0) : new[e.new]? ≠ new[here.new]? := by
  obtain ⟨c, m, rfl⟩ := h.1.eq_insert hhere
  obtain ⟨-, hm, hmn, h⟩ := covers_insert_cons_iff.1 h
  obtain ⟨k, rfl⟩ := h.1.eq_keep he
  obtain ⟨-, -, hk, -, hkn, -⟩ := covers_keep_cons_iff.1 h
  intro hsame
  have hsame : new[q + m]? = new[q]? := hsame
  have hn : sharedStart (stretch new (q + m) k) (stretch new q m) = 0 := hn
  have hpos := sharedStart_pos (k := k) (m := m) (by omega) (by omega) hk hm hsame
  exact Nat.ne_of_gt hpos hn

/-- An insertion that has been slid up and down leaves the start of the row settled. -/
theorem settled_turn (hc : Covers old new i j (before.reverse ++ here :: after) i' j')
    (hhere : here.kind = .insert) (h : Settled new before.reverse) :
    let up := slideUp new before here after
    Settled new (slideDown new up.before up.here up.after).row := by
  intro up
  have hkind : Kind.insert ≠ .keep := by decide
  have hslid : Slid old new i j i' j' .insert _ ⟨before, here, after⟩ := ⟨hc, .refl, hhere⟩
  have hup := hslid.up hkind
  have hdown := hup.down hkind
  obtain ⟨hbefore, htop⟩ := settled_slideUp here after h
  have htop : ∀ e ∈ up.before.head?, e.kind ≠ .insert := by
    intro e he hins
    have hk := htop e he
    rw [Edit.isKeep, hins] at hk
    cases hk
  have hstop := stop_slideDown new up.before up.here up.after
  obtain ⟨hbefore, htop⟩ := settled_slideDown hup.kind up.after hbefore htop
  have hcovers := hdown.covers
  have hins := hdown.kind
  generalize slideDown new up.before up.here up.after = down at *
  obtain ⟨before', here', after'⟩ := down
  by_cases hne : before' = []
  · subst hne
    match after', hstop, hcovers with
    | [], _, _ => trivial
    | e :: _, hstop, hcovers =>
      obtain ⟨hk, hn⟩ := hstop e rfl
      intro _
      refine ⟨fun hins' => ?_, fun _ => ne_of_slackBehind_eq_zero hcovers hins hk hn⟩
      rw [Edit.isKeep, hins'] at hk
      cases hk
  · exact (hbefore.concat htop).append_of_cons hne

/-- **Going through a row** and sliding its insertions settles its start. -/
theorem settled_slideAll (fuel : Nat) (before : List Edit)
    (hc : Covers old new i j (before.reverse ++ after) i' j')
    (h : before ≠ [] → Settled new (before.reverse ++ after)) (hfuel : before = [] → 0 < fuel) :
    Settled new (slideAll new .insert fuel before after) := by
  induction fuel generalizing before after with
  | zero => exact h fun hb => Nat.lt_irrefl 0 (hfuel hb)
  | succ fuel ih =>
    cases after with
    | nil =>
      rw [slideAll]
      by_cases hb : before = []
      · rw [hb]
        trivial
      · rw [List.append_nil] at h
        exact h hb
    | cons e after =>
      rw [slideAll]
      split
      · next hk =>
        have hbefore : Settled new before.reverse := by
          by_cases hb : before = []
          · rw [hb]
            trivial
          · exact (h hb).of_append
        have hturn := settled_turn hc hk hbefore
        have hslid : Slid old new i j i' j' .insert _ ⟨before, e, after⟩ := ⟨hc, .refl, hk⟩
        have hcovers := ((hslid.up (by decide)).down (by decide)).covers
        refine ih (_ :: _) ?_ ?_ (by simp)
        · rw [List.reverse_cons, List.append_assoc]
          exact hcovers
        · intro _
          rw [List.reverse_cons, List.append_assoc]
          exact hturn
      · next hk =>
        refine ih (_ :: _) ?_ ?_ (by simp)
        · rwa [List.reverse_cons, List.append_assoc]
        · intro _
          rw [List.reverse_cons, List.append_assoc, List.singleton_append]
          by_cases hb : before = []
          · subst hb
            match after with
            | [] => trivial
            | _ :: _ => exact fun he => absurd he hk
          · exact h hb

/-- **Sliding all edits** settles the start of the row. -/
theorem settled_slideBoth {es : List Edit} (h : Covers old new i j es i' j') :
    Settled new (slideBoth new es) := by
  have hdeletes : Moves new es (slideAll new .delete (bound es) [] es) :=
    moves_slideAll (by decide) (bound es) [] h
  refine settled_slideAll _ [] (h.of_moves hdeletes) (fun h => absurd rfl h) fun _ => ?_
  exact Nat.mul_pos (Nat.succ_pos _) (Nat.succ_pos _)

end LintHost.Diff
