import ChunkHound.WatchmanSession

/-!
# Replies of Watchman

A command that leaves before its reply was read leaves the reply to the next one
(`late_reply_mismatched`). In runs where none does so, only the command that holds the lock is ever
owed a reply (`Matched`), and each gets its own (`replies_match_of_settled`).
-/

namespace ChunkHound.Watchman

namespace Session

/-! ## Replies -/

/-- What is sent may still be read. -/
def reading (s : Session) : Bool := s.readerRunning && s.streamError.isNone

/-- The commands whose reply was not read, in the order in which it comes. -/
def owed (s : Session) : List ℕ := s.stdout.filterMap Line.answers ++ s.requests

/-- A command does not leave, other than with a reply, while its reply may still be read. -/
def Settled (s : Session) (a : Act) : Prop :=
  match a, s.lockHolder with
  | .abandon, some c => s.reading = true → c ∉ s.owed
  | .resume, some c => (s.futures c).any Outcome.isFailed = true → s.reading = true → c ∉ s.owed
  | _, _ => True

instance : ∀ (s : Session) (a : Act), Decidable (s.Settled a) := fun s a => by
  unfold Settled
  split <;> infer_instance

/-- Only the command that holds the lock is owed a reply, and what was set on its future is its
own. -/
structure Matched (loads : List UInt8 → Loaded) (s : Session) : Prop where
  owed : s.reading = true → s.owed = [] ∨ ∃ c, s.lockHolder = some c ∧ s.owed = [c]
  pending : ∀ c, s.pendingReply = some c → s.lockHolder = some c
  reply : ∀ c p a, s.lockHolder = some c → s.futures c = some (.reply p a) →
    a = some c ∧ (s.reading = true → s.owed = [])
  asked : ∀ line ∈ s.stdout, line.answers = none → (loads line.content).isReply = false
  returned : ∀ r ∈ s.returned, r.answers = some r.command

variable {loads : List UInt8 → Loaded} {maxsize : ℕ} {s s' : Session}

/-- What `Matched` speaks of. -/
def core (s : Session) :=
  (s.stdout, s.reading, s.lockHolder, s.pendingReply, s.futures, s.requests, s.returned)

theorem Matched.congr (h : s.Matched loads) (hs : s'.core = s.core) : s'.Matched loads := by
  simp only [core, Prod.mk.injEq] at hs
  obtain ⟨hstdout, hreading, hholder, hpending, hfutures, hrequests, hreturned⟩ := hs
  have howed : s'.owed = s.owed := by
    unfold Session.owed
    rw [hstdout, hrequests]
  constructor
  · rw [hreading, howed, hholder]
    exact h.owed
  · rw [hpending, hholder]
    exact h.pending
  · rw [hreading, howed, hholder, hfutures]
    exact h.reply
  · rw [hstdout]
    exact h.asked
  · rw [hreturned]
    exact h.returned

theorem setFuture_self (c : ℕ) (outcome : Outcome) :
    (s.setFuture c outcome).futures c = (s.futures c <|> some outcome) := Function.update_self ..

theorem Matched.failPendingReply (h : s.Matched loads) (error : String) :
    (s.failPendingReply error).Matched loads := by
  unfold Session.failPendingReply
  split
  · rename_i c hc
    constructor
    · exact h.owed
    · intro d hd
      cases hd
    · intro d p a hd hf
      refine h.reply d p a hd ?_
      obtain rfl : d = c := Option.some.inj (hd.symm.trans (h.pending c hc))
      rw [show ({ s.setFuture d (.failed error) with pendingReply := none } : Session).futures d =
        _ from setFuture_self d _] at hf
      cases hfut : s.futures d with
      | none => simp [hfut] at hf
      | some outcome => simpa [hfut] using hf
    · exact h.asked
    · exact h.returned
  · exact h

/-- A reader that ended reads nothing more. -/
theorem Matched.stopReader (h : s.Matched loads) :
    ({ s with readerRunning := false } : Session).Matched loads where
  owed hr := by cases hr
  pending := h.pending
  reply c p a hc hf := ⟨(h.reply c p a hc hf).1, fun hr => by cases hr⟩
  asked := h.asked
  returned := h.returned

/-- An error is recorded, and the command that waits is told. -/
theorem Matched.fail (h : s.Matched loads) (message error : String) :
    ((s.recordError message).failPendingReply error).Matched loads := by
  have hrec : (s.recordError message).Matched loads := h.congr rfl
  exact hrec.failPendingReply error

theorem Matched.readerFails (h : s.Matched loads) (error : String) :
    (s.readerFails error).Matched loads := by
  exact (h.fail _ error).stopReader

/-- The owner is told as well. -/
theorem Matched.resolve (h : s.Matched loads) (message : String) (result : Option String) :
    (((s.recordError message).failPendingReply message).resolveUnexpectedExit result).Matched
      loads := (h.fail message message).congr rfl

theorem Matched.readerEnds (h : s.Matched loads) : s.readerEnds.Matched loads := by
  unfold Session.readerEnds
  dsimp only
  split
  · exact h.stopReader.resolve _ _
  · exact h.stopReader

theorem Matched.queueSubscriptionPdu (h : s.Matched loads) (p : Payload) :
    (s.queueSubscriptionPdu maxsize p).Matched loads := by
  unfold Session.queueSubscriptionPdu
  dsimp only
  split <;> exact h.congr rfl

variable {rest : List Line} {line : Line}

/-- The line that is read is no longer owed. -/
theorem owed_cons (hs : s.stdout = line :: rest) :
    s.owed = line.answers.toList ++ ({ s with stdout := rest } : Session).owed := by
  unfold Session.owed
  rw [hs, List.filterMap_cons]
  cases line.answers <;> rfl

/-- Before it is read, the first line answers the command that holds the lock or is no reply. -/
theorem Matched.tail (h : s.Matched loads) (hs : s.stdout = line :: rest) :
    ({ s with stdout := rest } : Session).Matched loads := by
  have howed := owed_cons hs
  constructor
  · intro hr
    rcases h.owed hr with hnil | ⟨c, hc, hone⟩
    · rw [hnil] at howed
      exact Or.inl (List.append_eq_nil_iff.1 howed.symm).2
    · rw [hone] at howed
      cases ha : line.answers with
      | none =>
        rw [ha] at howed
        exact Or.inr ⟨c, hc, howed.symm⟩
      | some d =>
        rw [ha] at howed
        exact Or.inl (List.cons.inj howed).2.symm
  · exact h.pending
  · intro c p a hc hf
    refine ⟨(h.reply c p a hc hf).1, fun hr => ?_⟩
    have hnil := (h.reply c p a hc hf).2 hr
    rw [hnil] at howed
    exact (List.append_eq_nil_iff.1 howed.symm).2
  · intro l hl
    exact h.asked l (hs ▸ List.mem_cons_of_mem _ hl)
  · exact h.returned

variable {c : ℕ}

/-- A reply is set on the future of the command that it answers. -/
theorem Matched.setReply {p : Payload}
    (h : s.Matched loads) (hs : s.stdout = line :: rest) (hreading : s.reading = true)
    (hreply : (loads line.content).isReply = true) (hc : s.pendingReply = some c)
    (hfree : s.futures c = none) :
    (({ s with stdout := rest } : Session).setFuture c (.reply p line.answers)).Matched loads := by
  have hholder := h.pending c hc
  have howed := owed_cons hs
  obtain ⟨d, ha⟩ : ∃ d, line.answers = some d := by
    cases ha : line.answers with
    | none =>
      have hno := h.asked line (hs ▸ List.mem_cons_self) ha
      rw [hreply] at hno
      cases hno
    | some d => exact ⟨d, rfl⟩
  rw [ha] at howed
  obtain ⟨hdc, hrest⟩ : d = c ∧ ({ s with stdout := rest } : Session).owed = [] := by
    rcases h.owed hreading with hnil | ⟨e, he, hone⟩
    · rw [hnil] at howed
      cases howed
    · rw [hone] at howed
      obtain ⟨hed, hrest⟩ := List.cons.inj howed
      rw [hholder] at he
      exact ⟨hed.symm.trans (Option.some.inj he).symm, hrest.symm⟩
  have htail := h.tail hs
  refine ⟨htail.owed, htail.pending, fun e q b he hf => ?_, htail.asked, htail.returned⟩
  obtain rfl : e = c := Option.some.inj (he.symm.trans hholder)
  rw [setFuture_self, show ({ s with stdout := rest } : Session).futures e = none from hfree] at hf
  obtain ⟨-, rfl⟩ : p = q ∧ line.answers = b := by simpa using hf
  exact ⟨ha.trans (congrArg some hdc), fun _ => hrest⟩

theorem Matched.readLine (h : s.Matched loads)
    (hs : s.stdout = line :: rest) (hreading : s.reading = true) :
    (({ s with stdout := rest } : Session).readLine loads maxsize line).Matched loads := by
  have htail := h.tail hs
  unfold Session.readLine
  split
  · exact htail.readerFails _
  · split
    · exact htail
    · exact htail.congr rfl
    · exact htail.readerFails _
    · exact htail.congr rfl
    · rename_i p hload
      unfold dispatch
      split
      · exact htail.queueSubscriptionPdu p
      · rename_i hsub
        split
        · exact htail.congr rfl
        · rename_i hlog
          split
          · rename_i c hc
            obtain ⟨hpending, hfree⟩ := Option.filter_eq_some_iff.1 hc
            refine h.setReply hs hreading ?_ hpending (Option.isNone_iff_eq_none.1 hfree)
            rw [hload]
            simp [Loaded.isReply, hsub, hlog]
          · exact htail.congr rfl

/-- A command leaves when it is owed nothing. -/
theorem Matched.leave (h : s.Matched loads) (hc : s.lockHolder = some c)
    (hnil : s.reading = true → s.owed = []) : (s.leave c).Matched loads where
  owed hr := Or.inl (hnil hr)
  pending d hd := by
    obtain ⟨hpending, hne⟩ := Option.filter_eq_some_iff.1 hd
    have hdc : d = c := Option.some.inj ((h.pending d hpending).symm.trans hc)
    simp [hdc] at hne
  reply d p a hd := by cases hd
  asked := h.asked
  returned := h.returned

theorem Matched.owed_nil (h : s.Matched loads) (hc : s.lockHolder = some c)
    (hnot : s.reading = true → c ∉ s.owed) (hr : s.reading = true) : s.owed = [] := by
  rcases h.owed hr with hnil | ⟨d, hd, hone⟩
  · exact hnil
  · obtain rfl : c = d := Option.some.inj (hc.symm.trans hd)
    exact absurd (hone ▸ List.mem_singleton_self c) (hnot hr)

theorem Matched.finish {outcome : Outcome} (h : s.Matched loads)
    (hc : s.lockHolder = some c) (hf : s.futures c = some outcome)
    (hok : (s.futures c).any Outcome.isFailed = true → s.reading = true → c ∉ s.owed) :
    (s.finish c outcome).Matched loads := by
  unfold Session.finish
  cases outcome with
  | failed error =>
    refine h.leave hc (h.owed_nil hc (hok ?_))
    rw [hf]
    rfl
  | reply p a =>
    obtain ⟨ha, hnil⟩ := h.reply c p a hc hf
    have hleft : ((s.leave c).recordWarning? p.warning).Matched loads :=
      (h.leave hc hnil).congr rfl
    dsimp only
    split
    · exact hleft.congr rfl
    · refine ⟨hleft.owed, hleft.pending, hleft.reply, hleft.asked, fun r hr => ?_⟩
      rcases List.mem_append.1 hr with hr | hr
      · exact h.returned r hr
      · obtain rfl := List.mem_singleton.1 hr
        exact ha

/-- A command that gets the lock finds nothing owed. -/
theorem Matched.send (h : s.Matched loads) (hfree : s.lockHolder = none) :
    ({ s with
      waiting := s.waiting.erase c
      lockHolder := some c
      pendingReply := some c
      futures := Function.update s.futures c none
      requests := s.requests ++ [c] } : Session).Matched loads where
  owed hr := by
    refine Or.inr ⟨c, rfl, ?_⟩
    rcases h.owed hr with hnil | ⟨d, hd, -⟩
    · unfold Session.owed at hnil ⊢
      rw [← List.append_assoc, hnil, List.nil_append]
    · rw [hfree] at hd
      cases hd
  pending d hd := hd
  reply d p a hd hf := by
    obtain rfl : c = d := Option.some.inj hd
    have hnone : Function.update s.futures c none c = none := Function.update_self ..
    have hsome : Function.update s.futures c none c = some (.reply p a) := hf
    rw [hnone] at hsome
    cases hsome
  asked := h.asked
  returned := h.returned

/-- A reply is owed before Watchman sends it and until it is read. -/
theorem Matched.emit {requests : List ℕ} (h : s.Matched loads)
    (howed : line.answers.toList ++ requests = s.requests)
    (hasked : line.answers = none → (loads line.content).isReply = false) :
    ({ s with stdout := s.stdout ++ [line], requests := requests } : Session).Matched loads := by
  have hsame : ({ s with stdout := s.stdout ++ [line], requests := requests } : Session).owed =
      s.owed := by
    unfold Session.owed
    rw [← howed, List.filterMap_append, List.append_assoc]
    cases ha : line.answers <;> simp [ha]
  constructor
  · rw [hsame]
    exact h.owed
  · exact h.pending
  · rw [hsame]
    exact h.reply
  · intro l hl
    rcases List.mem_append.1 hl with hl | hl
    · exact h.asked l hl
    · obtain rfl := List.mem_singleton.1 hl
      exact hasked
  · exact h.returned

theorem Matched.step {a : Act} (h : s.Matched loads) (hok : s.Settled a)
    (hs : s.step loads maxsize a = some s') : s'.Matched loads := by
  cases a with
  | call =>
    obtain ⟨-, ⟨⟩⟩ := Option.ite_none_left_eq_some.1 hs
    exact h.congr rfl
  | send c =>
    obtain ⟨⟨-, hfree⟩, ⟨⟩⟩ := Option.ite_none_right_eq_some.1 hs
    exact h.send hfree
  | giveUp c =>
    obtain ⟨-, ⟨⟩⟩ := Option.ite_none_right_eq_some.1 hs
    exact h.congr rfl
  | resume =>
    unfold Settled at hok
    obtain ⟨c, outcome, hc, hf, rfl⟩ := resume_cases hs
    simp only [hc] at hok
    exact h.finish hc hf hok
  | abandon =>
    unfold Settled at hok
    obtain ⟨c, hc, rfl⟩ := Option.map_eq_some_iff.1 hs
    rw [hc] at hok
    exact h.leave hc (h.owed_nil hc hok)
  | emit line =>
    obtain ⟨ha, hno, rfl⟩ | ⟨c, requests, ha, hrequests, rfl⟩ := emit_cases hs
    · exact h.emit (by rw [ha]; rfl) fun _ => hno
    · exact h.emit (by rw [ha, hrequests]; rfl) fun hnone => by simp [ha] at hnone
  | close =>
    obtain rfl := Option.some.inj hs
    exact h.congr rfl
  | lose error =>
    obtain rfl := Option.some.inj hs
    have hlost : ({ s with streamError := some error, streamClosed := true } : Session).reading =
        false := by simp [reading]
    constructor
    · intro hr
      rw [hlost] at hr
      cases hr
    · exact h.pending
    · refine fun c p a hc hf => ⟨(h.reply c p a hc hf).1, fun hr => ?_⟩
      rw [hlost] at hr
      cases hr
    · exact h.asked
    · exact h.returned
  | exit rc =>
    obtain ⟨-, ⟨⟩⟩ := Option.ite_none_left_eq_some.1 hs
    exact h.congr rfl
  | read =>
    unfold Session.step at hs
    obtain ⟨hrunning, hs⟩ := Option.ite_none_right_eq_some.1 hs
    split at hs
    · obtain rfl := Option.some.inj hs
      exact h.readerFails _
    · rename_i line rest herror hstdout
      obtain rfl := Option.some.inj hs
      exact h.readLine hstdout (by simp [reading, hrunning, herror])
    · obtain ⟨-, ⟨⟩⟩ := Option.ite_none_right_eq_some.1 hs
      exact h.readerEnds
  | noticeExit =>
    obtain ⟨-, hs⟩ := Option.ite_none_right_eq_some.1 hs
    obtain ⟨rc, -, rfl⟩ := Option.map_eq_some_iff.1 hs
    have hwait : ({ s with waitRunning := false } : Session).Matched loads := h.congr rfl
    dsimp only
    split
    · exact hwait
    · exact hwait.resolve _ _
  | stderrFails error =>
    obtain ⟨-, hs⟩ := Option.ite_none_right_eq_some.1 hs
    obtain rfl := Option.some.inj hs
    have hended : ({ s with stderrRunning := false } : Session).Matched loads := h.congr rfl
    exact hended.fail _ _
  | stderrEnds =>
    obtain ⟨-, hs⟩ := Option.ite_none_right_eq_some.1 hs
    have hended : ({ s with stderrRunning := false } : Session).Matched loads := h.congr rfl
    dsimp only at hs
    split at hs
    · obtain rfl := Option.some.inj hs
      exact hended.fail _ _
    · obtain rfl := Option.some.inj hs
      exact hended
  | take =>
    obtain ⟨p, queue, -, rfl⟩ := take_cases hs
    exact h.congr rfl
  | stop =>
    obtain rfl := Option.some.inj hs
    have hcleared : ({ s with stopRequested := true, queue := [] } : Session).Matched loads :=
      h.congr rfl
    exact (hcleared.failPendingReply _).congr rfl
  | cancelReader =>
    obtain ⟨-, ⟨⟩⟩ := Option.ite_none_right_eq_some.1 hs
    exact h.stopReader

theorem matched_prepared (socket : Bool) : (prepared socket).Matched loads where
  owed _ := Or.inl rfl
  pending c hc := by cases hc
  reply c p a hc := by cases hc
  asked l hl := by cases hl
  returned r hr := by cases hr

open StepSystem in
/-- In a session whose commands do not leave while their reply may still be read, every command
that returns does so with the reply to it. -/
theorem replies_match_of_settled (loads : List UInt8 → Loaded) (maxsize : ℕ) {socket : Bool}
    (h : ReachWhen (step loads maxsize) Settled (prepared socket) s) :
    ∀ r ∈ s.returned, r.answers = some r.command :=
  (h.invariant (matched_prepared socket) fun _ _ _ hi hok hs => hi.step hok hs).returned

/-- Any line is a reply, whose text is of its first byte. -/
def loadsByte : List UInt8 → Loaded
  | [] => .blank
  | b :: _ => .object ⟨false, none, none, none, if b = 1 then "one" else "two"⟩

open StepSystem in
/-- Two commands that take turns. -/
theorem replies_match_in_turn : ∃ s, execute (guarded (step loadsByte 8) Settled) (prepared true)
      [.call, .call, .send 0, .emit ⟨[1], some 0⟩, .read, .resume, .send 1, .emit ⟨[2], some 1⟩,
        .read, .resume] = some s ∧
    s.returned.map (·.payload.body) = ["one", "two"] ∧
    ∀ r ∈ s.returned, r.answers = some r.command := by
  have hsome : ((execute (guarded (step loadsByte 8) Settled) (prepared true)
      [.call, .call, .send 0, .emit ⟨[1], some 0⟩, .read, .resume, .send 1, .emit ⟨[2], some 1⟩,
        .read, .resume]).any fun s => s.returned.map (·.payload.body) = ["one", "two"]) =
      true := by
    decide
  obtain ⟨s, hs, hreturned⟩ := (Option.any_eq_true _ _).1 hsome
  exact ⟨s, hs, of_decide_eq_true hreturned,
    replies_match_of_settled loadsByte 8 (.of_guarded (.of_execute _ hs))⟩

open StepSystem in
/-- The first command times out, and its reply is what the second one returns. -/
theorem late_reply_mismatched : ∃ s, Reach (step loadsByte 8) (prepared true) s ∧
    s.returned.map (fun r => (r.command, r.payload.body)) = [(1, "one")] ∧
    ¬∀ r ∈ s.returned, r.answers = some r.command := by
  have hsome : ((execute (step loadsByte 8) (prepared true)
      [.call, .call, .send 0, .abandon, .send 1, .emit ⟨[1], some 0⟩, .read, .resume]).any
        fun s => s.returned.map (fun r => (r.command, r.payload.body)) = [(1, "one")] ∧
          ¬∀ r ∈ s.returned, r.answers = some r.command) = true := by
    decide
  obtain ⟨s, hs, hall⟩ := (Option.any_eq_true _ _).1 hsome
  exact ⟨s, .of_execute _ hs, of_decide_eq_true hall⟩

end Session

end ChunkHound.Watchman
