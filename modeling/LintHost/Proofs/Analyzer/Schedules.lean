/-
LintHost/Proofs/Analyzer/Schedules.lean

Collecting what a process writes, under every schedule.  Four activities go on side by side
while a process runs: its input is fed, its two streams are read, and its end is waited for.
They are joined: the first stream that grows over the limit ends them all, and otherwise the
outcome is looked at when all four are over.  A schedule is any order of what happens to the
four, as long as what happens to each of them is in order (`Schedule`).

Main result: the outcome is told by the two streams, the end of the process and the limit
alone, no stream is ever kept beyond the limit, and lengths are compared without wrapping around
(`outcome_of_schedule`).
-/
import LintHost.Analyzer.Launch

namespace LintHost.Analyzer

/-! ### Streams within the limit -/

namespace Capture

/-- Whether both streams are within the limit. -/
def Fits (limit : Nat) (c : Capture) : Prop :=
  ∀ channel, (c.kept channel).length ≤ limit

theorem kept_empty (channel : Channel) : ({} : Capture).kept channel = [] := by
  cases channel <;> rfl

theorem fits_empty (limit : Nat) : Fits limit {} := by
  intro channel
  rw [kept_empty]
  exact Nat.zero_le _

theorem receive_eq_some_iff {limit : Nat} {c d : Capture} {p : Channel × List UInt8} :
    c.receive limit p = some d ↔
      (c.kept p.1).length + p.2.length ≤ limit ∧ c.append p.2 p.1 = d := by
  simp [receive]

theorem Fits.receive {limit : Nat} {c d : Capture} {p : Channel × List UInt8} (h : c.Fits limit)
    (hr : c.receive limit p = some d) : d.Fits limit := by
  obtain ⟨hle, rfl⟩ := receive_eq_some_iff.1 hr
  intro channel
  rw [kept_append]
  split
  · next he =>
    subst he
    rw [List.length_append]
    exact hle
  · exact h channel

theorem Fits.receiveAll {limit : Nat} {c d : Capture} {pieces : List (Channel × List UInt8)}
    (h : c.Fits limit) (hr : c.receiveAll limit pieces = some d) : d.Fits limit := by
  induction pieces generalizing c with
  | nil =>
    cases hr
    exact h
  | cons p pieces ih =>
    rw [Capture.receiveAll, List.foldlM_cons] at hr
    obtain ⟨e, he, hr⟩ := Option.bind_eq_some_iff.1 hr
    exact ih (h.receive he) hr

theorem receiveAll_append (limit : Nat) (c : Capture) (a b : List (Channel × List UInt8)) :
    c.receiveAll limit (a ++ b) = (c.receiveAll limit a).bind fun d => d.receiveAll limit b :=
  List.foldlM_append

theorem ofChannel_cons (channel : Channel) (p : Channel × List UInt8)
    (pieces : List (Channel × List UInt8)) :
    ofChannel channel (p :: pieces)
      = (if p.1 = channel then p.2 else []) ++ ofChannel channel pieces := by
  by_cases h : p.1 = channel
  · simp [ofChannel, h]
  · simp [ofChannel, h]

theorem ofChannel_append (channel : Channel) (a b : List (Channel × List UInt8)) :
    ofChannel channel (a ++ b) = ofChannel channel a ++ ofChannel channel b := by
  simp [ofChannel]

/-- **Pieces are received in full exactly if no stream comes out longer than the limit.** -/
theorem receiveAll_eq_none_iff {limit : Nat} {c : Capture} (h : c.Fits limit)
    (pieces : List (Channel × List UInt8)) :
    receiveAll limit c pieces = none ↔
      ∃ channel, limit < (c.kept channel ++ ofChannel channel pieces).length := by
  induction pieces generalizing c with
  | nil =>
    have hno : ¬∃ channel, limit < (c.kept channel ++ ofChannel channel []).length := by
      rintro ⟨channel, hlt⟩
      have hle := h channel
      rw [ofChannel, List.filter_nil, List.flatMap_nil, List.append_nil] at hlt
      omega
    exact iff_of_false (fun he => by cases he) hno
  | cons p pieces ih =>
    rw [receiveAll, List.foldlM_cons]
    rcases hr : c.receive limit p with - | d
    · -- the stream of the first piece is too long already
      have hlt : limit < (c.kept p.1).length + p.2.length := by
        refine Nat.lt_of_not_le fun hle => ?_
        rw [receive_eq_some_iff.2 ⟨hle, rfl⟩] at hr
        cases hr
      refine iff_of_true rfl ⟨p.1, ?_⟩
      rw [ofChannel_cons, if_pos rfl, List.length_append, List.length_append]
      omega
    · obtain ⟨-, hd⟩ := receive_eq_some_iff.1 hr
      refine (ih (h.receive hr)).trans (exists_congr fun channel => ?_)
      rw [← hd, kept_append, ofChannel_cons]
      split
      · rw [List.append_assoc]
      · rw [List.nil_append]

end Capture

/-! ### Activities -/

/-- What goes on side by side while a process runs. -/
inductive Activity where
  /-- Its input is fed. -/
  | feeding
  /-- One of its streams is read. -/
  | reading (channel : Channel)
  /-- Its end is waited for. -/
  | waiting
  deriving DecidableEq, Repr

/-- The activities. -/
def Activity.all : List Activity :=
  [.feeding, .reading .output, .reading .errors, .waiting]

theorem Activity.mem_all (a : Activity) : a ∈ all := by
  rcases a with _ | (_ | _) | _ <;> decide

/-- One thing that happens to one of the activities. -/
inductive Happening where
  /-- A part of the input is taken. -/
  | fed
  /-- The input is closed, because all of it is taken or because the process wants no more. -/
  | closed
  /-- A piece of a stream is read. -/
  | piece (channel : Channel) (bytes : List UInt8)
  /-- The end of a stream is read. -/
  | ended (channel : Channel)
  /-- The process ends. -/
  | exited (status : Status)
  deriving Repr

namespace Happening

/-- The activity that it happens to. -/
def activity : Happening → Activity
  | fed | closed => .feeding
  | piece channel _ | ended channel => .reading channel
  | exited _ => .waiting

/-- Whether its activity is over with it. -/
def isLast : Happening → Bool
  | fed | piece _ _ => false
  | closed | ended _ | exited _ => true

/-- The piece that is read, if one is. -/
def piece? : Happening → Option (Channel × List UInt8)
  | piece channel bytes => some (channel, bytes)
  | _ => none

end Happening

/-- The pieces that are read, in the order in which they are. -/
def piecesOf (happenings : List Happening) : List (Channel × List UInt8) :=
  happenings.filterMap Happening.piece?

theorem piecesOf_cons (h : Happening) (rest : List Happening) :
    piecesOf (h :: rest) = h.piece?.toList ++ piecesOf rest := by
  unfold piecesOf
  cases hp : h.piece? with
  | none => rw [List.filterMap_cons_none hp]; rfl
  | some p => rw [List.filterMap_cons_some hp]; rfl

theorem piecesOf_append (a b : List Happening) :
    piecesOf (a ++ b) = piecesOf a ++ piecesOf b :=
  List.filterMap_append

/-- What happens to one of the activities. -/
def share (a : Activity) (happenings : List Happening) : List Happening :=
  happenings.filter (·.activity = a)

theorem share_cons_self (h : Happening) (rest : List Happening) :
    share h.activity (h :: rest) = h :: share h.activity rest := by
  simp [share]

theorem share_cons_of_ne {a : Activity} {h : Happening} (ha : a ≠ h.activity)
    (rest : List Happening) : share a (h :: rest) = share a rest := by
  simp [share, ha.symm]

/-! ### Joining the activities -/

/-- How far the activities have come. -/
structure Progress where
  capture : Capture := {}
  /-- The activities that are over, the last one first. -/
  gone : List Activity := []
  status : Option Status := none

namespace Progress

/-- Goes on by one thing that happens; none if a stream grows over the limit. -/
def next (limit : Nat) (p : Progress) : Happening → Option Progress
  | .fed => some p
  | .closed => some { p with gone := .feeding :: p.gone }
  | .piece channel bytes =>
    (p.capture.receive limit (channel, bytes)).map fun capture => { p with capture }
  | .ended channel => some { p with gone := .reading channel :: p.gone }
  | .exited status => some { p with gone := .waiting :: p.gone, status := some status }

/-- The outcome, once all activities are over. -/
def outcome? (program : String) (p : Progress) : Option (Except Failure Output) :=
  if ∀ a ∈ Activity.all, a ∈ p.gone then p.status.map (outcome program p.capture) else none

/-- Goes on until all activities are over or a stream has grown over the limit. -/
def join (program : String) (limit : Nat) (p : Progress) :
    List Happening → Option (Except Failure Output)
  | [] => p.outcome? program
  | h :: rest =>
    match p.outcome? program with
    | some outcome => some outcome
    | none =>
      match p.next limit h with
      | none => some (.error (.overflow program limit))
      | some p => p.join program limit rest

/-- How far the activities are after some happenings, if no stream has grown over the limit. -/
def after (limit : Nat) (p : Progress) (happenings : List Happening) : Option Progress :=
  happenings.foldlM (next limit) p

/-- What is kept changes by the piece that is read, if one is. -/
theorem map_capture_next (limit : Nat) (p : Progress) (h : Happening) :
    (p.next limit h).map capture = p.capture.receiveAll limit h.piece?.toList := by
  cases h with
  | piece channel bytes =>
    simp only [next, Happening.piece?, Option.toList_some, Capture.receiveAll, List.foldlM_cons,
      List.foldlM_nil, Option.map_map]
    cases p.capture.receive limit (channel, bytes) with
    | none => rfl
    | some c => rfl
  | fed | closed | ended channel | exited status => rfl

theorem gone_of_next {limit : Nat} {p q : Progress} {h : Happening}
    (hn : p.next limit h = some q) :
    q.gone = if h.isLast then h.activity :: p.gone else p.gone := by
  cases h with
  | piece channel bytes =>
    obtain ⟨c, -, rfl⟩ := Option.map_eq_some_iff.1 hn
    rfl
  | fed | closed | ended channel | exited status =>
    cases hn
    rfl

/-- The end of the process is known once it has been waited for. -/
theorem status_of_next {limit : Nat} {p q : Progress} {h : Happening}
    (hn : p.next limit h = some q) :
    (∃ s, h = .exited s ∧ q.status = some s) ∨ h.activity ≠ .waiting ∧ q.status = p.status := by
  cases h with
  | piece channel bytes =>
    obtain ⟨c, -, rfl⟩ := Option.map_eq_some_iff.1 hn
    exact Or.inr ⟨by simp [Happening.activity], rfl⟩
  | exited status =>
    cases hn
    exact Or.inl ⟨status, rfl, rfl⟩
  | fed | closed | ended channel =>
    cases hn
    exact Or.inr ⟨by simp [Happening.activity], rfl⟩

/-- What is kept after some happenings is what is received of their pieces. -/
theorem map_capture_after (limit : Nat) (p : Progress) (happenings : List Happening) :
    (p.after limit happenings).map capture
      = p.capture.receiveAll limit (piecesOf happenings) := by
  induction happenings generalizing p with
  | nil => rfl
  | cons h rest ih =>
    rw [after, List.foldlM_cons, piecesOf_cons, Capture.receiveAll_append, ← map_capture_next]
    cases p.next limit h with
    | none => rfl
    | some q => exact ih q

theorem receiveAll_of_after {limit : Nat} {p q : Progress} {happenings : List Happening}
    (h : p.after limit happenings = some q) :
    p.capture.receiveAll limit (piecesOf happenings) = some q.capture := by
  rw [← map_capture_after, h]
  rfl

end Progress

/-! ### Schedules -/

/-- The most that is read of a stream at a time, in bytes. -/
def chunkLimit : Nat := 8192

/-- An order of what happens to a process that writes two given streams and ends in a given way.
What happens to each activity happens in order; nothing is said of one activity against another. -/
structure Schedule (written : Channel → List UInt8) (status : Status)
    (happenings : List Happening) : Prop where
  feeding : ∃ n, share .feeding happenings = List.replicate n .fed ++ [.closed]
  reading : ∀ channel, ∃ chunks : List (List UInt8),
    (∀ chunk ∈ chunks, 1 ≤ chunk.length ∧ chunk.length ≤ chunkLimit) ∧
      chunks.flatten = written channel ∧
      share (.reading channel) happenings = chunks.map (.piece channel) ++ [.ended channel]
  waiting : share .waiting happenings = [.exited status]

/-- Whether an activity is over with the last of some happenings and not before. -/
def Ends : List Happening → Prop
  | [] => False
  | h :: rest => if h.isLast then rest = [] else Ends rest

theorem ends_append {init : List Happening} {last : Happening} (hl : last.isLast = true)
    (hi : ∀ h ∈ init, h.isLast = false) : Ends (init ++ [last]) := by
  induction init with
  | nil => simp [Ends, hl]
  | cons h init ih =>
    obtain ⟨hh, hi⟩ := List.forall_mem_cons.1 hi
    rw [List.cons_append, Ends, hh]
    exact ih hi

/-- Whether what is still to happen brings all activities to their end: nothing happens any more
to those that are over, and the others are over with their last happening. -/
structure Leads (status : Status) (p : Progress) (happenings : List Happening) : Prop where
  ends : ∀ a, a ∈ p.gone ∧ share a happenings = [] ∨ a ∉ p.gone ∧ Ends (share a happenings)
  known : .waiting ∈ p.gone → p.status = some status
  exited : ∀ s, .exited s ∈ happenings → s = status

namespace Leads

variable {status : Status} {p : Progress} {h : Happening} {rest : List Happening}

/-- The activity that something happens to is not over. -/
theorem not_mem_gone (hl : Leads status p (h :: rest)) : h.activity ∉ p.gone := by
  rcases hl.ends h.activity with ⟨-, he⟩ | ⟨hn, -⟩
  · rw [share_cons_self] at he
    cases he
  · exact hn

theorem outcome?_eq_none (hl : Leads status p (h :: rest)) (program : String) :
    p.outcome? program = none :=
  if_neg fun ho => hl.not_mem_gone (ho _ (Activity.mem_all _))

/-- What happens leads on. -/
theorem next (hl : Leads status p (h :: rest)) {limit : Nat} {q : Progress}
    (hn : p.next limit h = some q) : Leads status q rest where
  ends a := by
    rw [Progress.gone_of_next hn]
    by_cases ha : a = h.activity
    · subst ha
      rcases hl.ends h.activity with ⟨hm, -⟩ | ⟨hno, he⟩
      · exact absurd hm hl.not_mem_gone
      · rw [share_cons_self, Ends] at he
        split at he
        · next hlast => exact Or.inl ⟨by simp [hlast], he⟩
        · next hlast => exact Or.inr ⟨by simp [hlast, hno], he⟩
    · have hm : a ∈ (if h.isLast then h.activity :: p.gone else p.gone) ↔ a ∈ p.gone := by
        split
        · simp [ha]
        · rfl
      rw [hm, ← share_cons_of_ne ha rest]
      exact hl.ends a
  known hm := by
    rcases Progress.status_of_next hn with ⟨s, rfl, hs⟩ | ⟨hne, hs⟩
    · rw [hs, hl.exited s List.mem_cons_self]
    · rw [hs]
      refine hl.known ?_
      rw [Progress.gone_of_next hn] at hm
      split at hm
      · exact (List.mem_cons.1 hm).resolve_left hne.symm
      · exact hm
  exited s hm := hl.exited s (List.mem_cons_of_mem _ hm)

/-- **The outcome is told by the pieces and the end of the process.** -/
theorem join_eq {happenings : List Happening} (hl : Leads status p happenings) (program : String)
    (limit : Nat) :
    p.join program limit happenings =
      some (match p.capture.receiveAll limit (piecesOf happenings) with
        | none => .error (.overflow program limit)
        | some c => outcome program c status) := by
  induction happenings generalizing p with
  | nil =>
    have hover : ∀ a, a ∈ p.gone := fun a => by
      rcases hl.ends a with ⟨hm, -⟩ | ⟨-, he⟩
      · exact hm
      · exact he.elim
    rw [Progress.join, Progress.outcome?, if_pos fun a _ => hover a, hl.known (hover _)]
    rfl
  | cons h rest ih =>
    rw [Progress.join, hl.outcome?_eq_none, piecesOf_cons, Capture.receiveAll_append,
      ← Progress.map_capture_next]
    dsimp only
    rcases hn : p.next limit h with - | q
    · rfl
    · exact ih (hl.next hn)

end Leads

namespace Schedule

variable {written : Channel → List UInt8} {status : Status} {happenings : List Happening}

theorem leads (h : Schedule written status happenings) : Leads status {} happenings where
  ends a := by
    refine Or.inr ⟨List.not_mem_nil, ?_⟩
    cases a with
    | feeding =>
      obtain ⟨n, he⟩ := h.feeding
      rw [he]
      refine ends_append rfl fun x hx => ?_
      obtain rfl := List.eq_of_mem_replicate hx
      rfl
    | reading channel =>
      obtain ⟨chunks, -, -, he⟩ := h.reading channel
      rw [he]
      refine ends_append rfl fun x hx => ?_
      obtain ⟨bytes, -, rfl⟩ := List.mem_map.1 hx
      rfl
    | waiting =>
      rw [h.waiting]
      exact rfl
  known hm := absurd hm List.not_mem_nil
  exited s hm := by
    have hs : .exited s ∈ share .waiting happenings :=
      List.mem_filter.2 ⟨hm, decide_eq_true rfl⟩
    rw [h.waiting, List.mem_singleton] at hs
    cases hs
    rfl

end Schedule

/-! ### The outcome -/

namespace Schedule

variable {written : Channel → List UInt8} {status : Status} {happenings : List Happening}

/-- The pieces of a stream are found among what happens to its reading. -/
theorem ofChannel_share (channel : Channel) (happenings : List Happening) :
    Capture.ofChannel channel (piecesOf (share (.reading channel) happenings))
      = Capture.ofChannel channel (piecesOf happenings) := by
  induction happenings with
  | nil => rfl
  | cons h rest ih =>
    by_cases ha : Activity.reading channel = h.activity
    · rw [ha, share_cons_self, ← ha, piecesOf_cons, piecesOf_cons, Capture.ofChannel_append,
        Capture.ofChannel_append, ih]
    · have hnone : Capture.ofChannel channel h.piece?.toList = [] := by
        cases h with
        | piece other bytes =>
          have hne : other ≠ channel := fun he => ha (he ▸ rfl)
          simp [Happening.piece?, Capture.ofChannel, hne]
        | fed | closed | ended other | exited status => rfl
      rw [share_cons_of_ne ha, ih, piecesOf_cons, Capture.ofChannel_append, hnone, List.nil_append]

theorem ofChannel_chunks (channel : Channel) (chunks : List (List UInt8)) :
    Capture.ofChannel channel (piecesOf (chunks.map (.piece channel) ++ [.ended channel]))
      = chunks.flatten := by
  induction chunks with
  | nil => rfl
  | cons chunk chunks ih =>
    rw [List.map_cons, List.cons_append, piecesOf_cons, Capture.ofChannel_append, ih,
      List.flatten_cons]
    simp [Happening.piece?, Capture.ofChannel]

/-- The pieces that are read of a stream make up the stream. -/
theorem ofChannel_piecesOf (h : Schedule written status happenings) (channel : Channel) :
    Capture.ofChannel channel (piecesOf happenings) = written channel := by
  obtain ⟨chunks, -, hflat, hshare⟩ := h.reading channel
  rw [← ofChannel_share, hshare, ofChannel_chunks, hflat]

/-- What is read at a time is no more than a chunk. -/
theorem length_piece_le (h : Schedule written status happenings) {channel : Channel}
    {bytes : List UInt8} (hm : .piece channel bytes ∈ happenings) : bytes.length ≤ chunkLimit := by
  obtain ⟨chunks, hlen, -, hshare⟩ := h.reading channel
  have hs : .piece channel bytes ∈ share (.reading channel) happenings :=
    List.mem_filter.2 ⟨hm, decide_eq_true rfl⟩
  rw [hshare] at hs
  rcases List.mem_append.1 hs with hs | hs
  · obtain ⟨chunk, hc, he⟩ := List.mem_map.1 hs
    cases he
    exact (hlen _ hc).2
  · cases List.mem_singleton.1 hs

end Schedule

/-- The outcome of a process that writes two given streams and ends in a given way. -/
def verdict (program : String) (limit : Nat) (written : Channel → List UInt8) (status : Status) :
    Except Failure Output :=
  if limit < (written .output).length ∨ limit < (written .errors).length then
    .error (.overflow program limit)
  else if written .errors ≠ [] then
    .error (.complaint program (String.ofList (Text.trim (Text.decodeLossy (written .errors)))))
  else if status = .exited 0 ∨ status = .exited 1 then
    .ok ⟨String.ofList (Text.decodeLossy (written .output)), status⟩
  else .error (.status program status)

theorem Status.isAccepted_iff (status : Status) :
    status.isAccepted = true ↔ status = .exited 0 ∨ status = .exited 1 := by
  cases status with
  | exited code => simp [isAccepted]
  | signalled signal => simp [isAccepted]

/-- What is received of pieces that make up the streams is all that the verdict looks at. -/
theorem verdict_eq {pieces : List (Channel × List UInt8)} {written : Channel → List UInt8}
    (h : ∀ channel, Capture.ofChannel channel pieces = written channel) (program : String)
    (limit : Nat) (status : Status) :
    collect program limit pieces status = verdict program limit written status := by
  have hlong : Capture.receiveAll limit {} pieces = none ↔
      limit < (written .output).length ∨ limit < (written .errors).length := by
    rw [Capture.receiveAll_eq_none_iff (Capture.fits_empty limit)]
    constructor
    · rintro ⟨channel, hlt⟩
      cases channel with
      | output => exact Or.inl (h .output ▸ hlt)
      | errors => exact Or.inr (h .errors ▸ hlt)
    · rintro (hlt | hlt)
      · exact ⟨.output, (h .output).symm ▸ hlt⟩
      · exact ⟨.errors, (h .errors).symm ▸ hlt⟩
  unfold collect verdict
  rcases hr : Capture.receiveAll limit {} pieces with - | c
  · rw [if_pos (hlong.1 hr)]
  · have hkept : ∀ channel, c.kept channel = written channel := fun channel => by
      rw [Capture.kept_receiveAll hr, h, Capture.kept_empty, List.nil_append]
    have hc : c = ⟨written .output, written .errors⟩ := by
      rw [← hkept .output, ← hkept .errors]
      rfl
    rw [if_neg fun hlt => Option.some_ne_none c (hr ▸ hlong.2 hlt), hc]
    simp only [outcome, Status.isAccepted_iff]

/-- **The outcome of a run does not depend on the schedule.**  Whatever the order in which the
input is taken, the two streams are read in chunks and the end of the process is seen, the
joined activities come to the verdict on the two streams, and so does a course with these
pieces that is over in time.  At no time more of a stream is kept than the limit, and the sum that
is compared with the limit is right as a 64-bit word. -/
theorem outcome_of_schedule (program : String) (limit : UInt64) {written : Channel → List UInt8}
    {status : Status} {happenings : List Happening} (h : Schedule written status happenings)
    (hlen : ∀ channel, 2 * (written channel).length < UInt64.size) :
    ({} : Progress).join program limit.toNat happenings
        = some (verdict program limit.toNat written status) ∧
      (∀ (call : Invocation) (duration : Nat), call.program = program →
        call.maxOutputBytes = limit.toNat → duration < call.timeout →
        Course.outcome ⟨piecesOf happenings, status, duration⟩ call
          = verdict program limit.toNat written status) ∧
      (∀ before rest p, happenings = before ++ rest →
        ({} : Progress).after limit.toNat before = some p → p.capture.Fits limit.toNat) ∧
      ∀ before channel bytes rest p, happenings = before ++ .piece channel bytes :: rest →
        ({} : Progress).after limit.toNat before = some p →
        (UInt64.ofNat (p.capture.kept channel).length + UInt64.ofNat bytes.length).toNat
          = (p.capture.kept channel).length + bytes.length := by
  have hverdict := verdict_eq h.ofChannel_piecesOf program limit.toNat status
  refine ⟨?_, ?_, ?_, ?_⟩
  · rw [h.leads.join_eq, ← hverdict]
    rfl
  · rintro call duration rfl hlimit hd
    rw [Course.outcome_of_lt hd, hlimit]
    exact hverdict
  · rintro before rest p - hp
    exact (Capture.fits_empty _).receiveAll (Progress.receiveAll_of_after hp)
  · rintro before channel bytes rest p rfl hp
    have hkept := Capture.kept_receiveAll (Progress.receiveAll_of_after hp) channel
    have hle : (p.capture.kept channel).length ≤ (written channel).length := by
      rw [hkept, Capture.kept_empty, List.nil_append, ← h.ofChannel_piecesOf channel,
        piecesOf_append, Capture.ofChannel_append, List.length_append]
      exact Nat.le_add_right _ _
    have hchunk : bytes.length ≤ chunkLimit :=
      h.length_piece_le (List.mem_append_right _ List.mem_cons_self)
    have hsmall : 2 * (written channel).length < 2 ^ 64 := hlen channel
    unfold chunkLimit at hchunk
    rw [UInt64.toNat_add, UInt64.toNat_ofNat', UInt64.toNat_ofNat']
    omega

/-- Two bytes on the one stream, exactly as many as the limit, and a blank on the other one, in an
order in which the process has ended first and the input is closed before it is taken. -/
theorem outcome_of_schedule_of_blank_errors :
    let written : Channel → List UInt8 := fun
      | .output => [91, 93]
      | .errors => [32]
    let happenings : List Happening :=
      [.exited (.exited 0), .piece .output [91], .piece .errors [32], .fed, .ended .errors, .closed,
        .piece .output [93], .ended .output]
    Schedule written (.exited 0) happenings ∧
      ({} : Progress).join "ruff" 2 happenings = some (.error (.complaint "ruff" "")) := by
  intro written happenings
  have h : Schedule written (.exited 0) happenings :=
    { feeding := ⟨1, rfl⟩
      reading := fun
        | .output => ⟨[[91], [93]], by decide, rfl, rfl⟩
        | .errors => ⟨[[32]], by decide, rfl, rfl⟩
      waiting := rfl }
  have hlen : ∀ channel, 2 * (written channel).length < UInt64.size := by
    rintro (_ | _) <;> decide
  have hblank : Text.decodeLossy [32] = [' '] := by
    have hpiece : Text.readPiece 32 [] = (some ' ', []) := rfl
    rw [Text.decodeLossy, Text.pieces, hpiece, Text.pieces]
    rfl
  have hverdict : verdict "ruff" 2 written (.exited 0) = .error (.complaint "ruff" "") := by
    rw [verdict, if_neg (by decide), if_pos (by decide), hblank]
    rfl
  exact ⟨h, hverdict ▸ (outcome_of_schedule "ruff" 2 h hlen).1⟩

end LintHost.Analyzer
