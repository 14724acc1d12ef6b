import ChunkHound.WatchmanSession

/-!
# The end of the Watchman reader

The reader ends at the end of the stream, on an exception and when it is cancelled. An exception
resolves nothing (`long_line_ends_reader`), nor does the end of a process' output before its exit
was seen. Where neither happens the reader never ends unnoticed (`reader_noticed_of_quiet`).
-/

namespace ChunkHound.Watchman

namespace Session

variable {loads : List UInt8 → Loaded} {maxsize : ℕ} {s s' : Session}

/-! ## The end of the reader -/

/-- While nobody asked for a stop, the reader runs or its end was noticed, and every subscription
that was read is kept or reported as dropped. -/
def Noticed (s : Session) : Prop :=
  s.stopRequested = false →
    (s.readerRunning = true ∨ s.unexpectedExit.isSome = true) ∧
    ∀ p ∈ s.received, p ∈ s.taken ++ s.queue ++ s.dropped

/-- The line is under the limit, and what it decodes to raises nothing that is not handled. -/
def Readable (loads : List UInt8 → Loaded) (line : Line) : Prop :=
  line.content.length ≤ lineLimit ∧
    match loads line.content with
    | .raises _ => False
    | _ => True

/-- A read raises nothing, and finds the end of a process' output after its exit was seen. -/
def Quiet (loads : List UInt8 → Loaded) (s : Session) (a : Act) : Prop :=
  match a with
  | .read =>
    s.streamError = none ∧ (∀ line ∈ s.stdout.head?, Readable loads line) ∧
      (s.stdout = [] → s.socket = true ∨ s.unexpectedExit.isSome = true)
  | _ => True

instance : ∀ (line : Line), Decidable (Readable loads line) := fun line => by
  unfold Readable
  split <;> infer_instance

instance : ∀ (s : Session) (a : Act), Decidable (s.Quiet loads a) := fun s a => by
  unfold Quiet
  split <;> infer_instance

/-- What `Noticed` speaks of. -/
def watch (s : Session) :=
  (s.stopRequested, s.readerRunning, s.unexpectedExit, s.received, s.taken, s.queue, s.dropped)

theorem Noticed.congr (h : s.Noticed) (hs : s'.watch = s.watch) : s'.Noticed := by
  simp only [watch, Prod.mk.injEq] at hs
  obtain ⟨hstop, hreader, hexit, hreceived, htaken, hqueue, hdropped⟩ := hs
  unfold Noticed
  rw [hstop, hreader, hexit, hreceived, htaken, hqueue, hdropped]
  exact h

theorem failPendingReply_watch (s : Session) (error : String) :
    (s.failPendingReply error).watch = s.watch := by
  unfold failPendingReply
  split <;> rfl

theorem finish_watch (s : Session) (c : ℕ) (outcome : Outcome) :
    (s.finish c outcome).watch = s.watch := by
  unfold finish
  split
  · rfl
  · dsimp only
    split <;> rfl

/-- The owner is told, whether the reader runs or not. -/
theorem noticed_resolve (message : Option String)
    (hkept : s.stopRequested = false → ∀ p ∈ s.received, p ∈ s.taken ++ s.queue ++ s.dropped) :
    (s.resolveUnexpectedExit message).Noticed := by
  intro hstop
  refine ⟨Or.inr ?_, hkept hstop⟩
  unfold resolveUnexpectedExit
  cases s.unexpectedExit <;> rfl

theorem Noticed.resolve (h : s.Noticed) (message error : String) :
    (((s.recordError message).failPendingReply error).resolveUnexpectedExit
      (some message)).Noticed := by
  refine (noticed_resolve (some message) fun hstop => (h hstop).2).congr ?_
  unfold failPendingReply
  split <;> rfl

theorem Noticed.queueSubscriptionPdu (h : s.Noticed) (p : Payload) :
    (s.queueSubscriptionPdu maxsize p).Noticed := by
  have hfull : ({ s with received := s.received ++ [p], dropped := s.dropped ++ [p] } :
      Session).Noticed := by
    refine fun hstop => ⟨(h hstop).1, fun q hq => ?_⟩
    rcases List.mem_append.1 hq with hq | hq
    · have hold := (h hstop).2 q hq
      simp only [List.mem_append] at hold ⊢
      exact hold.imp_right Or.inl
    · exact List.mem_append_right _ (List.mem_append_right _ hq)
  have hroom : ({ s with received := s.received ++ [p], queue := s.queue ++ [p] } :
      Session).Noticed := by
    refine fun hstop => ⟨(h hstop).1, fun q hq => ?_⟩
    rcases List.mem_append.1 hq with hq | hq
    · have hold := (h hstop).2 q hq
      simp only [List.mem_append] at hold ⊢
      exact hold.imp_left (Or.imp_right Or.inl)
    · exact List.mem_append_left _ (List.mem_append_right _ (List.mem_append_right _ hq))
  unfold Session.queueSubscriptionPdu
  dsimp only
  split
  · exact hfull.congr rfl
  · exact hroom.congr rfl

theorem Noticed.readLine {line : Line} (h : s.Noticed) (hline : Readable loads line) :
    (s.readLine loads maxsize line).Noticed := by
  obtain ⟨hlen, hload⟩ := hline
  unfold Session.readLine
  rw [if_neg (Nat.not_lt.2 hlen)]
  split
  · exact h
  · exact h.congr rfl
  · rename_i error heq
    rw [heq] at hload
    exact hload.elim
  · exact h.congr rfl
  · unfold dispatch
    split
    · exact h.queueSubscriptionPdu _
    · split
      · exact h.congr rfl
      · split <;> exact h.congr rfl

/-- The end of the stream is noticed here, or it was noticed before. -/
theorem Noticed.readerEnds (h : s.Noticed)
    (hend : s.socket = true ∨ s.unexpectedExit.isSome = true) : s.readerEnds.Noticed := by
  unfold Session.readerEnds
  dsimp only
  split
  · have htold : (({ s with readerRunning := false } : Session).resolveUnexpectedExit
        (some "Watchman session connection closed unexpectedly")).Noticed :=
      noticed_resolve _ fun hstop => (h hstop).2
    refine htold.congr ?_
    unfold failPendingReply
    split <;> rfl
  · rename_i hno
    refine fun hstop => ⟨Or.inr (hend.resolve_left fun hsocket => hno ?_), (h hstop).2⟩
    have hstop : s.stopRequested = false := hstop
    simp [hsocket, hstop]

theorem Noticed.step {a : Act} (h : s.Noticed) (hok : s.Quiet loads a)
    (hs : s.step loads maxsize a = some s') : s'.Noticed := by
  cases a with
  | call =>
    obtain ⟨-, ⟨⟩⟩ := Option.ite_none_left_eq_some.1 hs
    exact h.congr rfl
  | send c =>
    obtain ⟨-, ⟨⟩⟩ := Option.ite_none_right_eq_some.1 hs
    exact h.congr rfl
  | giveUp c =>
    obtain ⟨-, ⟨⟩⟩ := Option.ite_none_right_eq_some.1 hs
    exact h.congr rfl
  | resume =>
    obtain ⟨c, outcome, -, -, rfl⟩ := resume_cases hs
    exact h.congr (finish_watch s c outcome)
  | abandon =>
    obtain ⟨c, -, rfl⟩ := Option.map_eq_some_iff.1 hs
    exact h.congr rfl
  | emit line =>
    obtain ⟨-, -, rfl⟩ | ⟨c, requests, -, -, rfl⟩ := emit_cases hs
    · exact h.congr rfl
    · exact h.congr rfl
  | close =>
    obtain rfl := Option.some.inj hs
    exact h.congr rfl
  | lose error =>
    obtain rfl := Option.some.inj hs
    exact h.congr rfl
  | exit rc =>
    obtain ⟨-, ⟨⟩⟩ := Option.ite_none_left_eq_some.1 hs
    exact h.congr rfl
  | read =>
    obtain ⟨hlost, hline, hend⟩ := hok
    unfold Session.step at hs
    obtain ⟨-, hs⟩ := Option.ite_none_right_eq_some.1 hs
    split at hs
    · rename_i herror
      rw [hlost] at herror
      cases herror
    · rename_i line rest herror hstdout
      obtain rfl := Option.some.inj hs
      have hread : ({ s with stdout := rest } : Session).Noticed := h.congr rfl
      exact hread.readLine (hline line (by rw [hstdout]; rfl))
    · rename_i hstdout
      obtain ⟨-, ⟨⟩⟩ := Option.ite_none_right_eq_some.1 hs
      exact h.readerEnds (hend hstdout)
  | noticeExit =>
    obtain ⟨-, hs⟩ := Option.ite_none_right_eq_some.1 hs
    obtain ⟨rc, -, rfl⟩ := Option.map_eq_some_iff.1 hs
    have hwait : ({ s with waitRunning := false } : Session).Noticed := h.congr rfl
    dsimp only
    split
    · exact hwait
    · exact hwait.resolve _ _
  | stderrFails error =>
    obtain ⟨-, hs⟩ := Option.ite_none_right_eq_some.1 hs
    obtain rfl := Option.some.inj hs
    exact h.congr (failPendingReply_watch _ _)
  | stderrEnds =>
    obtain ⟨-, hs⟩ := Option.ite_none_right_eq_some.1 hs
    dsimp only at hs
    split at hs
    · obtain rfl := Option.some.inj hs
      exact h.congr (failPendingReply_watch _ _)
    · obtain rfl := Option.some.inj hs
      exact h.congr rfl
  | take =>
    obtain ⟨p, queue, hq, rfl⟩ := take_cases hs
    intro hstop
    obtain ⟨hreader, hkept⟩ := h hstop
    refine ⟨hreader, fun q hq' => ?_⟩
    have hold := hkept q hq'
    rw [hq] at hold
    simpa [or_assoc] using hold
  | stop =>
    obtain rfl := Option.some.inj hs
    have hcleared : ({ s with stopRequested := true, queue := [] } : Session).Noticed :=
      fun hstop => by cases hstop
    exact noticed_resolve none fun hstop => (hcleared.congr (failPendingReply_watch _ _) hstop).2
  | cancelReader =>
    obtain ⟨hstop, ⟨⟩⟩ := Option.ite_none_right_eq_some.1 hs
    exact fun hnot => by rw [show s.stopRequested = false from hnot] at hstop; cases hstop

open StepSystem in
/-- In a session where no read raises and the output of a process ends only after its exit was
seen, the reader never ends unnoticed. -/
theorem reader_noticed_of_quiet (loads : List UInt8 → Loaded) (maxsize : ℕ) {socket : Bool}
    (h : ReachWhen (step loads maxsize) (Quiet loads) (prepared socket) s) : s.Noticed :=
  h.invariant (fun _ => ⟨Or.inl rfl, fun p hp => by cases hp⟩)
    fun _ _ _ hi hok hs => hi.step hok hs

/-- Any line is a subscription. -/
def loadsSubscription : List UInt8 → Loaded
  | [] => .blank
  | _ :: _ => .object ⟨true, none, none, none, ""⟩

open StepSystem in
/-- Two subscriptions for a queue with one place, before the connection is closed. -/
theorem reader_noticed_closing : ∃ s, execute (guarded (step loadsSubscription 1)
      (Quiet loadsSubscription)) (prepared true)
      [.emit ⟨[1], none⟩, .emit ⟨[2], none⟩, .read, .read, .close, .read] = some s ∧
    s.received.length = 2 ∧ s.dropped.length = 1 ∧ s.readerRunning = false ∧ s.Noticed := by
  have hsome : ((execute (guarded (step loadsSubscription 1) (Quiet loadsSubscription))
      (prepared true) [.emit ⟨[1], none⟩, .emit ⟨[2], none⟩, .read, .read, .close, .read]).any
        fun s => s.received.length = 2 ∧ s.dropped.length = 1 ∧ s.readerRunning = false) =
      true := by
    decide
  obtain ⟨s, hs, hall⟩ := (Option.any_eq_true _ _).1 hsome
  obtain ⟨hreceived, hdropped, hended⟩ := of_decide_eq_true hall
  exact ⟨s, hs, hreceived, hdropped, hended,
    reader_noticed_of_quiet loadsSubscription 1 (.of_guarded (.of_execute _ hs))⟩

open StepSystem in
/-- A line over the limit ends the reader, and the owner is not told. -/
theorem long_line_ends_reader : ∃ s, Reach (step loadsSubscription 8) (prepared true) s ∧
    s.stopRequested = false ∧ s.readerRunning = false ∧ s.unexpectedExit = none ∧
    ¬s.Noticed := by
  have hlong : lineLimit < (List.replicate (lineLimit + 1) (0 : UInt8)).length := by
    rw [List.length_replicate]
    exact Nat.lt_succ_self _
  have hrun : Reach (step loadsSubscription 8) (prepared true)
      ((prepared true).readerFails "Separator is not found, and chunk exceed the limit") := by
    refine .step (a := .read) (.step (a := .emit ⟨List.replicate (lineLimit + 1) 0, none⟩) .init
      trivial rfl) trivial ?_
    simp only [step, prepared, List.nil_append, if_true, readLine, if_pos hlong]
  refine ⟨_, hrun, rfl, rfl, rfl, fun h => ?_⟩
  rcases (h rfl).1 with hrunning | htold
  · cases hrunning
  · cases htold

end Session

end ChunkHound.Watchman
