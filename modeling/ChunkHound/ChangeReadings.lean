import ChunkHound.Carriers

/-!
# Changes are read

Whether the last modification of a path is read. Once an event of it is accepted, the event
waits, or what came of it : a change that waits, a follow-up reserved behind the reading of
the path, a mutation kept aside, or a reading that began after the modification (`Attended`).
Each step moves this along, but for one that drops an event, as a duplicate or as its path cannot
be normalised, or ends a reading that has not read the file, while nothing else is left of the
modification, and one that takes a mutation whose path cannot be normalised (`DropsChange`).
-/

namespace ChunkHound.Realtime

open StepSystem

/-- A reading of the path has still to begin. -/
def ToRead (s : State) (p : String) : Prop :=
  s.queues.HasChange p ∨ (s.active p = true ∧ s.queues.reservedFollowUps p ≠ none) ∨
    ∃ d, s.worker.buffered = some d ∧ d.1.Reads p

/-- The path is being read, and was not modified since that began. -/
def Reading (s : State) (p : String) : Prop := ∃ m, s.worker = .processing m true ∧ m.path = p

/-- The last modification of the path was read, or failed, or is going to be read. -/
def Attended (s : State) (p : String) : Prop :=
  s.read p = true ∨ s.failedFiles p = true ∨ ToRead s p ∨ Reading s p

/-- One of the events tells of a change of the path. -/
def Announced (events : List (EventType × String)) (p : String) : Prop :=
  (.created, p) ∈ events ∨ (.modified, p) ∈ events

/-- An event is dropped, or a file is not read, and with it goes all that was left of a
modification, or the path of the mutation that is taken cannot be normalised. -/
def DropsChange (s : State) : Action → Prop
  | .consume inWindow => ∃ event path rest, s.eventQueue = (event, path) :: rest ∧
      (event = .created ∨ event = .modified) ∧ s.recentFileEvents path = some event ∧
      inWindow = true ∧ s.disk path = true ∧ s.reported path = true ∧
      ¬ (Attended s path ∨ Announced rest path)
  | .consumeRaises => ∃ event path rest, s.eventQueue = (event, path) :: rest ∧
      (event = .created ∨ event = .modified) ∧ s.disk path = true ∧ s.reported path = true ∧
      ¬ (Attended s path ∨ Announced rest path)
  | .finish .unread _ _ => ∃ m, s.worker = .processing m true ∧ s.disk m.path = true ∧
      s.reported m.path = true ∧ ¬ (s.read m.path = true ∨ s.failedFiles m.path = true ∨
        ToRead s m.path ∨ Announced s.eventQueue m.path)
  | .takeRaises => True
  | _ => False

theorem not_raises {s : State} {a : Action} (h : ¬ DropsChange s a) : ¬ Raises a := by
  rintro rfl
  exact h trivial

/-- Nothing waits, and the worker rests. -/
structure Quiescent (s : State) : Prop where
  events : s.eventQueue = []
  items : s.queues.items = []
  worker : s.worker = .idle none

/-- A path on the disk whose last modification was reported. -/
def ChangeKept (s : State) (p : String) : Prop :=
  s.disk p = true → s.reported p = true → Attended s p ∨ Announced s.eventQueue p

section Steps

variable {s s₁ s' : State} {p : String}

/-! ## Readings that have to begin -/

/-- What was to be read is still to be read. -/
structure Carries (s s' : State) : Prop where
  change : ∀ p, s.queues.HasChange p → s'.queues.HasChange p
  reserved : ∀ p, s.queues.reservedFollowUps p ≠ none → s'.queues.reservedFollowUps p ≠ none
  active : ∀ p, s'.active p = s.active p
  buffered : s'.worker.buffered = s.worker.buffered

theorem Carries.trans (h : Carries s s₁) (h' : Carries s₁ s') : Carries s s' where
  change p hp := h'.change p (h.change p hp)
  reserved p hp := h'.reserved p (h.reserved p hp)
  active p := (h'.active p).trans (h.active p)
  buffered := h'.buffered.trans h.buffered

theorem Carries.of_grows {latest : Generations} (h : Queues.Grows latest s.queues s'.queues)
    (hworker : s'.worker = s.worker) : Carries s s' where
  change := h.change
  reserved := h.reserved
  active p := by rw [State.active, State.active, hworker]
  buffered := by rw [hworker]

theorem Carries.of_eq (hqueues : s'.queues = s.queues) (hworker : s'.worker = s.worker) :
    Carries s s' where
  change p hp := hqueues ▸ hp
  reserved p hp := hqueues ▸ hp
  active p := by rw [State.active, State.active, hworker]
  buffered := by rw [hworker]

theorem Queued.carries (h : Queued s s') : Carries s s' := .of_grows h.grows h.worker

theorem ToRead.carried (h : ToRead s p) (hc : Carries s s') : ToRead s' p := by
  rcases h with hchange | ⟨hactive, hreserved⟩ | ⟨d, hd, hreads⟩
  · exact Or.inl (hc.change p hchange)
  · exact Or.inr (Or.inl ⟨(hc.active p).trans hactive, hc.reserved p hreserved⟩)
  · exact Or.inr (Or.inr ⟨d, hc.buffered.trans hd, hreads⟩)

theorem carries_recordAccepted (h : s.queues.Wired) (event : EventType) (path : String) :
    Carries s (s.recordAccepted event path) := by
  have hgrows : Queues.Grows s.latestSourceGeneration s.queues
      (s.recordAccepted event path).queues := by
    cases event <;> exact Queues.refreshPendingChange_grows h path _
  refine .of_grows hgrows ?_
  cases event <;> rfl

variable {path : String}

/-- A change that is added is read later. -/
theorem toRead_addFile (h : s.queues.Wired)
    (hlatest : (s.latestSourceGeneration path).isSome) : ToRead (s.addFile path .change) path :=
  (Queues.addFile_change h path _ (s.active path)).imp_right fun ⟨hactive, _, hreserved⟩ =>
    Or.inl ⟨hactive, hreserved hlatest⟩

variable {event : EventType}

theorem toRead_handleEvent (h : s.queues.Wired) (hlatest : (s.latestSourceGeneration path).isSome)
    (hchange : event = .created ∨ event = .modified) :
    ToRead (s.handleEvent event path) path := by
  rcases hchange with rfl | rfl <;> exact toRead_addFile h hlatest

/-- The state after a change that polling found and that was not admitted. -/
def State.pollRefused (s : State) (path : String) : State :=
  let s := ((s.addFile path .change).advanceGeneration path).refreshPendingChange path
  { s with queues := s.queues.reserve path (s.latestSourceGeneration path) }

theorem pollChanged_eq (s : State) (path : String) : s.pollChanged path =
    if (s.queues.addFile path .change (s.latestSourceGeneration path) (s.active path)).1 then
      (s.addFile path .change).recordAccepted .modified path
    else s.pollRefused path := by
  unfold State.pollChanged State.pollRefused
  rfl

theorem grows_pollRefused (h : Inv s) (path : String) (latest : Generations) :
    Queues.Grows latest (s.addFile path .change).queues (s.pollRefused path).queues := by
  have hadded := (h.addFile path .change).wired
  have hrefreshed : Queues.Grows latest (s.addFile path .change).queues
      (((s.addFile path .change).advanceGeneration path).refreshPendingChange path).queues :=
    Queues.refreshPendingChange_grows hadded path _
  exact hrefreshed.trans (Queues.reserve_grows hrefreshed.wired path _)

theorem carries_pollRefused (h : Inv s) (path : String) :
    Carries (s.addFile path .change) (s.pollRefused path) :=
  .of_grows (grows_pollRefused h path s.latestSourceGeneration) rfl

/-- A change that polling finds is read later, whether it is admitted or not. -/
theorem toRead_pollChanged (h : Inv s) (path : String) : ToRead (s.pollChanged path) path := by
  have hadded := h.addFile path .change
  rw [pollChanged_eq]
  rcases Queues.addFile_change h.wired path (s.latestSourceGeneration path) (s.active path) with
    hchange | ⟨hactive, hrefused, -⟩
  · have hwaits : ToRead (s.addFile path .change) path := Or.inl hchange
    split
    · exact hwaits.carried (carries_recordAccepted hadded.wired .modified path)
    · exact hwaits.carried (carries_pollRefused h path)
  · rw [hrefused]
    refine Or.inr (Or.inl ⟨hactive, ?_⟩)
    have hlatest : (s.advanceGeneration path).latestSourceGeneration path =
        some (s.nextSourceGeneration + 1) := Function.update_self ..
    show (Queues.reserve _ path ((s.advanceGeneration path).latestSourceGeneration path)
      ).reservedFollowUps path ≠ none
    rw [hlatest]
    exact Queues.reserve_ne_none _ path _

theorem carries_pollChanged (h : Inv s) (path : String) : Carries s (s.pollChanged path) := by
  have hadded := (queued_addFile h.wired path .change).carries
  rw [pollChanged_eq]
  split
  · exact hadded.trans (carries_recordAccepted (h.addFile path .change).wired .modified path)
  · exact hadded.trans (carries_pollRefused h path)

theorem carries_accept (h : s.queues.Wired) (event : EventType) (path : String) :
    Carries s (s.accept event path) := by
  rw [accept_eq]
  split
  · exact (carries_recordAccepted h event path).trans (.of_eq rfl rfl)
  · exact .of_eq rfl rfl

/-! ## The worker -/

/-- The worker begins : nothing else changes but the queues and the failed files. -/
theorem begin_rest (s : State) (m : Mutation) (owned : Bool) : s.begin m owned =
    { s with
      queues := (s.begin m owned).queues
      worker := (s.begin m owned).worker
      failedFiles := (s.begin m owned).failedFiles } := by
  unfold State.begin
  split
  · split <;> rfl
  · split <;> rfl
  · simp only
    split <;> rfl
  · rfl
  · rfl
  · rfl

theorem begin_failed (m : Mutation) (owned : Bool) (hp : s.failedFiles p = true) :
    (s.begin m owned).failedFiles p = true := by
  unfold State.begin
  split
  · split
    · exact hp
    · exact fail_mono { s with worker := .idle none } m.path hp
  · split
    · exact hp
    · exact fail_mono { s with worker := .idle none } m.path hp
  · simp only
    split <;> exact hp
  · exact hp
  · exact hp
  · exact hp

variable {m : Mutation}

/-- A mutation that reads the path begins to, or finds no file. -/
theorem reads_begin (owned : Bool) (hreads : m.Reads p) :
    (s.disk p = true ∧ Reading (s.begin m owned) p) ∨
      (s.disk p = false ∧ (s.begin m owned).failedFiles p = true) := by
  obtain ⟨hop, rfl⟩ := hreads
  unfold State.begin
  rcases hop with hop | hop
  all_goals
    simp only [hop]
    cases hdisk : s.disk m.path with
    | true => exact Or.inl ⟨rfl, m, rfl, rfl⟩
    | false => exact Or.inr ⟨rfl, fail_self ..⟩

/-- The changes that wait go on waiting, but for one kept aside by a batch of deletes. -/
theorem hasChange_begin (h : s.queues.Wired) (m : Mutation) (owned : Bool)
    (hp : s.queues.HasChange p) : ToRead (s.begin m owned) p := by
  unfold State.begin
  split
  · split <;> exact Or.inl hp
  · split <;> exact Or.inl hp
  · have hc := Queues.collectDeletes_collected s.latestSourceGeneration (deleteBatchSize - 1)
      [(m, owned)] h
    simp only
    split
    · exact (hc.change p hp).imp_right Or.inr
    · exact (hc.change p hp).imp_right Or.inr
  · exact Or.inl hp
  · exact Or.inl hp
  · exact Or.inl hp

theorem toRead_take (h : Inv s) (hs : s.take = some s') (hp : ToRead s p) :
    ToRead s' p ∨ (s.disk p = true ∧ Reading s' p) ∨
      (s.disk p = false ∧ s'.failedFiles p = true) := by
  obtain ⟨t, m, owned, ht, rfl⟩ := take_cases h hs
  obtain ⟨buffered, hidle⟩ := ht.idle
  have hdisk : t.disk = s.disk := by rw [ht.rest]
  have hbegins : m.Reads p → ToRead (t.begin m owned) p ∨ (s.disk p = true ∧
      Reading (t.begin m owned) p) ∨ (s.disk p = false ∧ (t.begin m owned).failedFiles p = true) :=
    fun hreads => hdisk ▸ Or.inr (reads_begin owned hreads)
  rcases hp with hchange | ⟨hactive, -⟩ | ⟨d, hd, hreads⟩
  · rcases ht.change p hchange with hstill | hreads
    · exact Or.inl (hasChange_begin ht.wired m owned hstill)
    · exact hbegins hreads
  · simp [State.active, hidle] at hactive
  · rw [ht.buffered d hd] at hreads
    exact hbegins hreads

/-- A batch of deletes that is taken and not carried out loses no change. -/
theorem toRead_checkRaises (h : Inv s) (hs : s.checkRaises = some s') (hp : ToRead s p) :
    ToRead s' p := by
  obtain ⟨t, m, owned, batch, buffered, queues, ht, hop, hcollect, rfl⟩ := checkRaises_cases h hs
  have hc := Queues.collectDeletes_collected t.latestSourceGeneration (deleteBatchSize - 1)
    [(m, owned)] ht.wired
  rw [hcollect] at hc
  obtain ⟨_, hidle⟩ := ht.idle
  have hdelete : ¬ m.Reads p := by
    rintro ⟨hread | hread, -⟩ <;> simp [hop] at hread
  rcases hp with hchange | ⟨hactive, -⟩ | ⟨d, hd, hreads⟩
  · exact (hc.change p ((ht.change p hchange).resolve_right hdelete)).imp_right Or.inr
  · simp [State.active, hidle] at hactive
  · rw [ht.buffered d hd] at hreads
    exact absurd hreads hdelete

/-- A reading that is put off waits again, or failed. -/
theorem reads_retryOrFail (h : s.queues.Wired) (hdated : Dated m)
    (hreads : m.Reads p) : (s.retryOrFail m).queues.HasChange p ∨
      (s.retryOrFail m).failedFiles p = true := by
  unfold State.retryOrFail
  split
  · rename_i q hq
    obtain ⟨-, hchange, -⟩ : Queues.Grows s.latestSourceGeneration s.queues q ∧ _ :=
      Queues.scheduleRetry_spec h hdated hq
    exact Or.inl (hchange p hreads)
  · rw [← hreads.2]
    exact Or.inr (fail_self s m.path)

/-- What the end of a reading leaves : what waited or was reserved waits. -/
structure Ended (s : State) (m : Mutation) (s' : State) : Prop where
  worker : s'.worker = .idle none
  rest : s' = { s with
    queues := s'.queues
    worker := s'.worker
    failedFiles := s'.failedFiles
    recentFileEvents := s'.recentFileEvents
    read := s'.read
    rows := s'.rows }
  change : ∀ p, s.queues.HasChange p ∨ m.path = p ∧ s.queues.reservedFollowUps p ≠ none →
    s'.queues.HasChange p
  delete : ∀ p, s.queues.HasDelete s.latestSourceGeneration p →
    s'.queues.HasDelete s.latestSourceGeneration p
  read : ∀ p, s.read p = true → s'.read p = true
  rows : ∀ p, m.path ≠ p → s'.rows p = s.rows p
  failed : ∀ p, s.failedFiles p = true → s'.failedFiles p = true

/-- The end of the reading, and then only additions to the queues. -/
theorem Ended.queued (h : Ended s m s₁) (hq : Queued s₁ s') : Ended s m s' where
  worker := hq.worker.trans h.worker
  rest := by
    have hrest := h.rest
    rw [hq.rest, hrest]
  change p hp := hq.grows.change p (h.change p hp)
  delete p hp := by
    have hdelete := hq.grows.delete p
    rw [h.rest] at hdelete
    exact hdelete (h.delete p hp)
  read p hp := by
    rw [hq.rest]
    exact h.read p hp
  rows p hp := by
    rw [hq.rest]
    exact h.rows p hp
  failed p hp := hq.failed p (h.failed p hp)

theorem ended_endReading (hgrows : Queues.Grows s.latestSourceGeneration s.queues s₁.queues)
    (hrest : s₁ = { s with
      queues := s₁.queues
      recentFileEvents := s₁.recentFileEvents
      read := s₁.read
      rows := s₁.rows })
    (hread : ∀ p, s.read p = true → s₁.read p = true)
    (hrows : ∀ p, m.path ≠ p → s₁.rows p = s.rows p) : Ended s m (s₁.endReading m.path) := by
  obtain ⟨-, hchange, hdelete, hreserved⟩ : (s₁.queues.drain m.path).Wired ∧
      (∀ p, s₁.queues.HasChange p → _) ∧
        (∀ p, s₁.queues.HasDelete s.latestSourceGeneration p → _) ∧ _ :=
    Queues.drain_spec hgrows.wired m.path
  refine ⟨rfl, ?_, fun p hp => ?_, fun p hp => hdelete p (hgrows.delete p hp), hread, hrows,
    fun p hp => ?_⟩
  · rw [hrest]
    rfl
  · rcases hp with hp | ⟨rfl, hp⟩
    · exact hchange p (hgrows.change p hp)
    · exact hreserved (hgrows.reserved _ hp)
  · rw [hrest]
    exact hp

theorem ended_finishProcessing (h : Inv s)
    (hop : m.operation = .change ∨ m.operation = .scan) (fresh : Bool) (outcome : Outcome)
    (wrote : Bool) : Ended s m (s.finishProcessing m fresh outcome wrote) := by
  have hrows : ∀ p, m.path ≠ p →
      Function.update s.rows m.path (s.rows m.path || wrote) p = s.rows p := fun p hp =>
    Function.update_of_ne hp.symm ..
  have hended : Ended s m (State.endReading { s with
      rows := Function.update s.rows m.path (s.rows m.path || wrote) } m.path) :=
    ended_endReading (.refl h.wired) rfl (fun _ => id) hrows
  have hreturned : ∀ seen, Ended s m (({ s with
      rows := Function.update s.rows m.path (s.rows m.path || wrote)
      read := Function.update s.read m.path (s.read m.path || seen)
      recentFileEvents := Function.update s.recentFileEvents m.path none }.addFile
        m.path .embed).endReading m.path) := fun seen => by
    refine ended_endReading (Queues.addFile_grows h.wired ..) rfl (fun p hp => ?_) hrows
    show Function.update s.read m.path (s.read m.path || seen) p = true
    rw [Function.update_apply]
    split
    · rename_i heq
      rw [← heq, hp]
      rfl
    · exact hp
  unfold State.finishProcessing
  simp only
  split
  · exact hreturned fresh
  · exact hreturned false
  · exact hended.queued (queued_retryOrFail (Queues.drain_wired h.wired m.path)
      (dated_of_reads hop))
  · exact hended.queued (queued_fail (Queues.drain_wired h.wired m.path) m.path)

variable {outcome : Outcome}

/-- A reading that began after the last modification has read it, failed, or waits again, unless it
returns and has not read the file. -/
theorem attended_finishProcessing (h : Inv s)
    (hop : m.operation = .change ∨ m.operation = .scan) (wrote : Bool)
    (hread : outcome ≠ .unread) : Attended (s.finishProcessing m true outcome wrote) m.path := by
  unfold State.finishProcessing
  simp only
  split
  · refine Or.inl ?_
    show Function.update s.read m.path (s.read m.path || true) m.path = true
    rw [Function.update_self, Bool.or_true]
  · exact absurd rfl hread
  · have hretried := reads_retryOrFail (s := State.endReading { s with
      rows := Function.update s.rows m.path (s.rows m.path || wrote) } m.path)
      (Queues.drain_wired h.wired m.path) (dated_of_reads hop) ⟨hop, rfl⟩
    rcases hretried with hchange | hfailed
    · exact Or.inr (Or.inr (Or.inl (Or.inl hchange)))
    · exact Or.inr (Or.inl hfailed)
  · exact Or.inr (Or.inl (fail_self ..))

/-- The worker rests again. -/
theorem toRead_idle (hp : ToRead s p) (hactive : s.active p = false) :
    ToRead { s with worker := .idle s.worker.buffered } p := by
  rcases hp with hchange | ⟨hreading, -⟩ | hbuffered
  · exact Or.inl hchange
  · rw [hactive] at hreading
    cases hreading
  · exact Or.inr (Or.inr hbuffered)

variable {files : List String} {wrote : Bool}

/-- Nothing the worker is done with takes a reading back. -/
theorem toRead_finish (h : Inv s)
    (hs : s.finish outcome wrote files = some s') (hp : ToRead s p) : ToRead s' p := by
  have hsound := h.worker
  rcases finish_cases h hs with ⟨m, fresh, hworker, rfl⟩ | ⟨batch, buffered, hworker, rfl⟩ |
    ⟨hside, hqueued⟩
  · rw [hworker] at hsound
    refine Or.inl ((ended_finishProcessing h hsound fresh outcome wrote).change p ?_)
    rcases hp with hchange | ⟨hactive, hreserved⟩ | ⟨d, hd, -⟩
    · exact Or.inl hchange
    · exact Or.inr ⟨by simpa [State.active, hworker] using hactive, hreserved⟩
    · rw [hworker] at hd
      cases hd
  · have hidle := toRead_idle hp (by simp [State.active, hworker])
    rw [hworker] at hsound hidle
    have hended : ToRead (s.endDelete batch buffered files) p := hidle.carried (.of_eq rfl rfl)
    exact hended.carried
      (queued_finishDelete h.wired (fun m hm => (hsound.1 m hm).2) buffered outcome files).carries
  · have hrests : s.active p = false ∧ s.worker.buffered = none := by
      unfold State.active
      cases hworker : s.worker with
      | idle buffered => simp [hworker, Worker.Side] at hside
      | processing m fresh => simp [hworker, Worker.Side] at hside
      | deleting batch buffered => simp [hworker, Worker.Side] at hside
      | cleaningDirectory m => exact ⟨rfl, rfl⟩
      | indexingDirectory m => exact ⟨rfl, rfl⟩
      | embedding m => exact ⟨rfl, rfl⟩
    have hidle := toRead_idle hp hrests.1
    rw [hrests.2] at hidle
    exact hidle.carried hqueued.carries

/-! ## No change is lost -/

theorem Attended.carried (h : Attended s p) (hc : Carries s s')
    (hread : s.read p = true → s'.read p = true)
    (hfailed : s.failedFiles p = true → s'.failedFiles p = true)
    (hreading : Reading s p → Reading s' p) : Attended s' p := by
  rcases h with hr | hf | ht | hg
  · exact Or.inl (hread hr)
  · exact Or.inr (Or.inl (hfailed hf))
  · exact Or.inr (Or.inr (Or.inl (ht.carried hc)))
  · exact Or.inr (Or.inr (Or.inr (hreading hg)))

theorem Attended.queued (h : Attended s p) (hq : Queued s s') : Attended s' p := by
  refine h.carried hq.carries ?_ (hq.failed p) ?_
  · rw [hq.rest]
    exact id
  · rintro ⟨m, hworker, hpath⟩
    exact ⟨m, hq.worker.trans hworker, hpath⟩

/-- What the worker leaves alone when it begins. -/
theorem take_rest (h : Inv s) (hs : s.take = some s') :
    s' = { s with
      queues := s'.queues
      worker := s'.worker
      held := s'.held
      failedFiles := s'.failedFiles } ∧
    ∀ p, s.failedFiles p = true → s'.failedFiles p = true := by
  obtain ⟨t, m, owned, ht, rfl⟩ := take_cases h hs
  have hfailed : t.failedFiles = s.failedFiles := by rw [ht.rest]
  refine ⟨?_, fun p hp => begin_failed m owned (hfailed ▸ hp)⟩
  have hrest := ht.rest
  rw [begin_rest, hrest]

theorem attended_take (h : Inv s) (hs : s.take = some s') (hdisk : s.disk p = true)
    (hp : Attended s p) : Attended s' p := by
  obtain ⟨hrest, hfailed⟩ := take_rest h hs
  rcases hp with hr | hf | ht | ⟨m, hworker, -⟩
  · rw [hrest]
    exact Or.inl hr
  · exact Or.inr (Or.inl (hfailed p hf))
  · rcases toRead_take h hs ht with ht | ⟨-, hg⟩ | ⟨hgone, -⟩
    · exact Or.inr (Or.inr (Or.inl ht))
    · exact Or.inr (Or.inr (Or.inr hg))
    · rw [hdisk] at hgone
      cases hgone
  · obtain ⟨t, m, owned, ht, -⟩ := take_cases h hs
    obtain ⟨buffered, hidle⟩ := ht.idle
    rw [hidle] at hworker
    cases hworker

/-- What the worker leaves alone when it is done. -/
def Rests (s s' : State) : Prop :=
  s' = { s with
    queues := s'.queues
    worker := s'.worker
    failedFiles := s'.failedFiles
    recentFileEvents := s'.recentFileEvents
    read := s'.read
    rows := s'.rows } ∧
  (∀ p, s.read p = true → s'.read p = true) ∧
  ∀ p, s.failedFiles p = true → s'.failedFiles p = true

variable {deleted : List String}

theorem rest_endDelete {batch : List Mutation} {buffered : Option (Mutation × Bool)}
    (hq : Queued (s.endDelete batch buffered deleted) s') : Rests s s' := by
  have hread : s'.read = s.read := by rw [hq.rest]; rfl
  refine ⟨?_, fun p => ?_, hq.failed⟩
  · rw [hq.rest]
    rfl
  · rw [hread]
    exact id

theorem finish_rest (h : Inv s) (hs : s.finish outcome wrote files = some s') : Rests s s' := by
  have hsound := h.worker
  rcases finish_cases h hs with ⟨m, fresh, hworker, rfl⟩ | ⟨batch, buffered, hworker, rfl⟩ |
    ⟨-, hqueued⟩
  · rw [hworker] at hsound
    have hended := ended_finishProcessing h hsound fresh outcome wrote
    exact ⟨hended.rest, hended.read, hended.failed⟩
  · rw [hworker] at hsound
    exact rest_endDelete
      (queued_finishDelete h.wired (fun m hm => (hsound.1 m hm).2) buffered outcome files)
  · have hread : s'.read = s.read := by rw [hqueued.rest]
    refine ⟨?_, fun p => ?_, hqueued.failed⟩
    · rw [hqueued.rest]
    · rw [hread]
      exact id

/-- What was read, failed or has to be read stays so. -/
theorem attended_finish (h : Inv s) (hs : s.finish outcome wrote files = some s')
    (hp : s.read p = true ∨ s.failedFiles p = true ∨ ToRead s p) : Attended s' p := by
  obtain ⟨-, hread, hfailed⟩ := finish_rest h hs
  rcases hp with hr | hf | ht
  · exact Or.inl (hread p hr)
  · exact Or.inr (Or.inl (hfailed p hf))
  · exact Or.inr (Or.inr (Or.inl (toRead_finish h hs ht)))

/-- A reading that ends has read the file, or failed, or is put off, or something else is left. -/
theorem changeKept_finish (h : Inv s) (hk : ChangeKept s p)
    (hok : ¬ DropsChange s (.finish outcome wrote files))
    (hs : s.finish outcome wrote files = some s') : ChangeKept s' p := by
  obtain ⟨hrest, -⟩ := finish_rest h hs
  have hsound := h.worker
  have hevents : s'.eventQueue = s.eventQueue := by rw [hrest]
  intro hdisk hreported
  rw [hrest] at hdisk hreported
  rw [hevents]
  have hleft : (s.read p = true ∨ s.failedFiles p = true ∨ ToRead s p ∨
      Announced s.eventQueue p) → Attended s' p ∨ Announced s.eventQueue p := by
    rintro (hr | hf | ht | ha)
    · exact Or.inl (attended_finish h hs (Or.inl hr))
    · exact Or.inl (attended_finish h hs (Or.inr (Or.inl hf)))
    · exact Or.inl (attended_finish h hs (Or.inr (Or.inr ht)))
    · exact Or.inr ha
  rcases hk hdisk hreported with (hr | hf | ht | ⟨m, hworker, rfl⟩) | ha
  · exact hleft (Or.inl hr)
  · exact hleft (Or.inr (Or.inl hf))
  · exact hleft (Or.inr (Or.inr (Or.inl ht)))
  · by_cases hunread : outcome = .unread
    · subst hunread
      refine hleft ?_
      by_contra hnone
      exact hok ⟨m, hworker, hdisk, hreported, hnone⟩
    · rw [hworker] at hsound
      unfold State.finish at hs
      rw [hworker] at hs
      obtain rfl := Option.some.inj hs
      exact Or.inl (attended_finishProcessing h hsound wrote hunread)
  · exact hleft (Or.inr (Or.inr (Or.inr ha)))

/-- A batch that is put off loses no change. -/
theorem attended_retriesRaise (h : Inv s) {n : ℕ}
    (hs : s.retriesRaise outcome n deleted = some s') (hp : Attended s p) : Attended s' p := by
  obtain ⟨batch, buffered, hworker, -, -, -, -, hqueued⟩ := retriesRaise_cases h hs
  obtain ⟨-, hread, hfailed⟩ := rest_endDelete hqueued
  rcases hp with hr | hf | ht | ⟨m, hreading, -⟩
  · exact Or.inl (hread p hr)
  · exact Or.inr (Or.inl (hfailed p hf))
  · have hidle := toRead_idle ht (by simp [State.active, hworker])
    rw [hworker] at hidle
    have hended : ToRead (s.endDelete batch buffered deleted) p := hidle.carried (.of_eq rfl rfl)
    exact Or.inr (Or.inr (Or.inl (hended.carried hqueued.carries)))
  · rw [hworker] at hreading
    cases hreading

/-- What a batch that is taken and not carried out leaves alone. -/
theorem checkRaises_rest (h : Inv s) (hs : s.checkRaises = some s') :
    s' = { s with
      queues := s'.queues
      worker := s'.worker
      held := s'.held
      failedFiles := s'.failedFiles } ∧
    ∀ p, s.failedFiles p = true → s'.failedFiles p = true := by
  obtain ⟨t, m, owned, batch, buffered, queues, ht, -, -, rfl⟩ := checkRaises_cases h hs
  have hfailed : t.failedFiles = s.failedFiles := by rw [ht.rest]
  refine ⟨?_, fun p hp => ?_⟩
  · rw [ht.rest]
    rfl
  · exact fail_mono _ m.path (hfailed ▸ hp)

theorem attended_checkRaises (h : Inv s) (hs : s.checkRaises = some s') (hp : Attended s p) :
    Attended s' p := by
  obtain ⟨hrest, hfailed⟩ := checkRaises_rest h hs
  rcases hp with hr | hf | ht | ⟨m, hworker, -⟩
  · rw [hrest]
    exact Or.inl hr
  · exact Or.inr (Or.inl (hfailed p hf))
  · exact Or.inr (Or.inr (Or.inl (toRead_checkRaises h hs ht)))
  · obtain ⟨t, m, owned, batch, buffered, queues, ht, -⟩ := checkRaises_cases h hs
    obtain ⟨_, hidle⟩ := ht.idle
    rw [hidle] at hworker
    cases hworker

/-- A step that neither shows a new modification nor takes an event. -/
theorem ChangeKept.moved (hk : ChangeKept s p) (hdisk : s'.disk p = true → s.disk p = true)
    (hreported : s'.reported p = true → s.reported p = true)
    (hevents : ∀ e ∈ s.eventQueue, e ∈ s'.eventQueue)
    (hattended : s.disk p = true → Attended s p → Attended s' p) : ChangeKept s' p := by
  intro hd hr
  refine (hk (hdisk hd) (hreported hr)).imp (hattended (hdisk hd)) fun ha => ?_
  exact ha.imp (hevents _) (hevents _)

/-- A step that leaves the disk and the events as they are. -/
theorem ChangeKept.stays (hk : ChangeKept s p) (hdisk : s'.disk = s.disk)
    (hreported : s'.reported = s.reported) (hevents : s'.eventQueue = s.eventQueue)
    (hattended : s.disk p = true → Attended s p → Attended s' p) : ChangeKept s' p :=
  hk.moved (fun hd => hdisk ▸ hd) (fun hr => hreported ▸ hr) (fun _ he => hevents ▸ he) hattended

theorem carries_write (s : State) (path : String) : Carries s (s.write path) := by
  refine ⟨fun _ => id, fun _ => id, fun p => ?_, ?_⟩
  · unfold State.active State.write
    cases s.worker <;> rfl
  · unfold State.write
    cases s.worker <;> rfl

theorem changeKept_write (hk : ChangeKept s p) (path : String) :
    ChangeKept (s.write path) p := by
  by_cases hpath : p = path
  · subst hpath
    intro _ hreported
    simp [State.write] at hreported
  · have hsame : ∀ (f : String → Bool) (b : Bool), Function.update f path b p = f p := fun f b =>
      Function.update_of_ne hpath b f
    refine hk.moved (fun hd => (hsame s.disk true).symm.trans hd)
      (fun hr => (hsame s.reported false).symm.trans hr) (fun _ => id) fun _ ha => ?_
    refine ha.carried (carries_write s path) (fun hr => (hsame s.read false).trans hr) id ?_
    rintro ⟨m, hworker, rfl⟩
    refine ⟨m, ?_, rfl⟩
    simp [State.write, hworker, hpath]

/-- Only a change of the path itself reports it. -/
theorem recordAccepted_reported (hnew : ¬ ((event = .created ∨ event = .modified) ∧ path = p)) :
    (s.recordAccepted event path).reported p = s.reported p := by
  cases event with
  | created => exact Function.update_of_ne (fun heq => hnew ⟨Or.inl rfl, heq.symm⟩) ..
  | modified => exact Function.update_of_ne (fun heq => hnew ⟨Or.inr rfl, heq.symm⟩) ..
  | deleted => rfl
  | dirCreated => rfl
  | dirDeleted => rfl

theorem changeKept_accept (h : Inv s) (hk : ChangeKept s p) (event : EventType) (path : String) :
    ChangeKept (s.accept event path) p := by
  have hcarries := carries_accept h.wired event path
  rw [accept_eq] at hcarries ⊢
  split
  · rename_i hroom
    rw [if_pos hroom] at hcarries
    by_cases hnew : (event = .created ∨ event = .modified) ∧ path = p
    · obtain ⟨hevent, rfl⟩ := hnew
      intro _ _
      refine Or.inr ?_
      rcases hevent with rfl | rfl
      · exact Or.inl (List.mem_append_right _ (List.mem_singleton_self _))
      · exact Or.inr (List.mem_append_right _ (List.mem_singleton_self _))
    · refine hk.moved (fun hd => ?_) (fun hr => ?_) (fun e he => List.mem_append_left _ he)
        fun _ ha => ha.carried hcarries (fun hr => ?_) (fun hf => ?_) ?_
      · cases event <;> exact hd
      · exact (recordAccepted_reported hnew).symm.trans hr
      · cases event <;> exact hr
      · cases event <;> exact hf
      · cases event <;> exact id
  · exact hk

theorem announced_cons {rest : List (EventType × String)}
    (h : Announced ((event, path) :: rest) p) :
    Announced rest p ∨ (event = .created ∨ event = .modified) ∧ path = p := by
  rcases h with h | h
  · rcases List.mem_cons.1 h with heq | h
    · obtain ⟨hevent, hpath⟩ := Prod.mk.inj heq
      exact Or.inr ⟨Or.inl hevent.symm, hpath.symm⟩
    · exact Or.inl (Or.inl h)
  · rcases List.mem_cons.1 h with heq | h
    · obtain ⟨hevent, hpath⟩ := Prod.mk.inj heq
      exact Or.inr ⟨Or.inr hevent.symm, hpath.symm⟩
    · exact Or.inl (Or.inr h)

theorem changeKept_consume (h : Inv s) (hk : ChangeKept s p) {inWindow : Bool}
    (hok : ¬ DropsChange s (.consume inWindow)) (hs : s.consume inWindow = some s') :
    ChangeKept s' p := by
  obtain ⟨event, path, rest, hqueue, hlatest, ⟨hrecent, hwindow, rfl⟩ | rfl⟩ :=
    consume_cases h hs
  all_goals rw [ChangeKept, hqueue] at hk
  · intro hdisk hreported
    have hleft : Attended s p ∨ Announced rest p := by
      rcases hk hdisk hreported with ha | ha
      · exact Or.inl ha
      · refine (announced_cons ha).elim Or.inr fun ⟨hevent, hpath⟩ => ?_
        subst hpath
        by_contra hnone
        exact hok ⟨event, path, rest, hqueue, hevent, hrecent, hwindow, hdisk, hreported, hnone⟩
    exact hleft.imp_left fun ha => ha.carried (.of_eq rfl rfl) id id id
  · have hwired : (s.remember event path rest).queues.Wired := h.wired
    have hqueued := queued_handleEvent hwired event hlatest
    intro hdisk hreported
    rw [hqueued.rest] at hdisk hreported
    rw [hqueued.events]
    rcases hk hdisk hreported with ha | ha
    · have hremembered : Attended (s.remember event path rest) p :=
        ha.carried (.of_eq rfl rfl) id id id
      exact Or.inl (hremembered.queued hqueued)
    · refine (announced_cons ha).elim Or.inr fun ⟨hevent, hpath⟩ => ?_
      subst hpath
      exact Or.inl (Or.inr (Or.inr (Or.inl (toRead_handleEvent hwired hlatest hevent))))

/-- An event whose path cannot be normalised is lost. -/
theorem changeKept_consumeRaises (hk : ChangeKept s p) (hok : ¬ DropsChange s .consumeRaises)
    (hs : s.consumeRaises = some s') : ChangeKept s' p := by
  obtain ⟨event, path, rest, hqueue, rfl⟩ := consumeRaises_cases hs
  rw [ChangeKept, hqueue] at hk
  intro hdisk hreported
  have hleft : Attended s p ∨ Announced rest p := by
    rcases hk hdisk hreported with ha | ha
    · exact Or.inl ha
    · refine (announced_cons ha).elim Or.inr fun ⟨hevent, hpath⟩ => ?_
      subst hpath
      by_contra hnone
      exact hok ⟨event, path, rest, hqueue, hevent, hdisk, hreported, hnone⟩
  exact hleft.imp_left fun ha => ha.carried (.of_eq rfl rfl) id id id

theorem changeKept_pollChanged (h : Inv s) (hk : ChangeKept s p) (path : String) :
    ChangeKept (s.pollChanged path) p := by
  by_cases hpath : path = p
  · subst hpath
    exact fun _ _ => Or.inl (Or.inr (Or.inr (Or.inl (toRead_pollChanged h path))))
  · have hcarries := carries_pollChanged h path
    rw [pollChanged_eq] at hcarries ⊢
    split
    · rename_i hadmitted
      rw [if_pos hadmitted] at hcarries
      refine hk.moved id (fun hr => ?_) (fun _ => id) fun _ ha => ha.carried hcarries id id id
      exact (recordAccepted_reported (s := s.addFile path .change)
        fun hnew => hpath hnew.2).symm.trans hr
    · rename_i hrefused
      rw [if_neg hrefused] at hcarries
      exact hk.moved id id (fun _ => id) fun _ ha => ha.carried hcarries id id id

theorem changeKept_pollDeleted (h : Inv s) (hk : ChangeKept s p) (path : String) :
    ChangeKept (s.pollDeleted path) p := by
  have hqueued : Queued (s.recordAccepted .deleted path) (s.pollDeleted path) :=
    queued_enqueue (inv_recordAccepted h .deleted path).wired fun _ =>
      recordAccepted_isSome s .deleted path
  have hcarries := (carries_recordAccepted h.wired .deleted path).trans hqueued.carries
  exact hk.moved id id (fun _ => id) fun _ ha => ha.carried hcarries id id id

theorem changeKept_queued (hk : ChangeKept s p) (hq : Queued s s') : ChangeKept s' p :=
  hk.stays (by rw [hq.rest]) (by rw [hq.rest]) hq.events fun _ ha => ha.queued hq

theorem changeKept_step (h : Inv s) (hk : ChangeKept s p) {a : Action} (hok : ¬ DropsChange s a)
    (hs : step s a = some s') : ChangeKept s' p := by
  cases a with
  | write path =>
    obtain rfl := Option.some.inj hs
    exact changeKept_write hk path
  | unlink path =>
    simp only [step] at hs
    split at hs
    · obtain rfl := Option.some.inj hs
      refine hk.moved (fun hd => ?_) id (fun _ => id) fun _ ha =>
        ha.carried (.of_eq rfl rfl) id id id
      simp only [Function.update_apply] at hd
      split at hd
      · cases hd
      · exact hd
    · cases hs
  | accept event path =>
    obtain rfl := Option.some.inj hs
    exact changeKept_accept h hk event path
  | consume inWindow => exact changeKept_consume h hk hok hs
  | consumeRaises => exact changeKept_consumeRaises hk hok hs
  | forget path =>
    obtain rfl := Option.some.inj hs
    exact hk.moved id id (fun _ => id) fun _ ha => ha.carried (.of_eq rfl rfl) id id id
  | pollChanged path =>
    obtain rfl := Option.some.inj hs
    exact changeKept_pollChanged h hk path
  | pollDeleted path =>
    obtain rfl := Option.some.inj hs
    exact changeKept_pollDeleted h hk path
  | addFile path priority =>
    obtain rfl := Option.some.inj hs
    exact changeKept_queued hk (queued_addFile h.wired path priority)
  | debounceFires i =>
    obtain ⟨q, hq, rfl⟩ := Option.map_eq_some_iff.1 hs
    exact changeKept_queued hk ⟨Queues.debounceFires_grows h.wired hq, rfl, fun _ => id⟩
  | retryFires i =>
    obtain ⟨q, hq, rfl⟩ := Option.map_eq_some_iff.1 hs
    exact changeKept_queued hk ⟨Queues.retryFires_grows h.wired hq, rfl, fun _ => id⟩
  | take =>
    obtain ⟨hrest, -⟩ := take_rest h hs
    exact hk.stays (by rw [hrest]) (by rw [hrest]) (by rw [hrest]) fun hd ha =>
      attended_take h hs hd ha
  | retryRaises i =>
    obtain ⟨q, hq, rfl⟩ := Option.map_eq_some_iff.1 hs
    obtain ⟨m, -, hop, ht⟩ : ∃ m, s.queues.retryTasks[i]? = some m ∧ m.operation = .delete ∧
        Queues.Taken s.latestSourceGeneration s.queues q m true :=
      Queues.retryRaises_taken h.wired hq
    refine hk.stays rfl rfl rfl fun _ ha => ha.carried ⟨fun p hp => ?_, fun p hp => ?_,
      fun _ => rfl, rfl⟩ id id id
    · refine (ht.change p hp).resolve_right ?_
      rintro ⟨hread | hread, -⟩ <;> simp [hop] at hread
    · exact fun hnone => hp (ht.reserved ▸ hnone)
  | takeRaises => exact absurd trivial hok
  | checkRaises =>
    obtain ⟨hrest, -⟩ := checkRaises_rest h hs
    exact hk.stays (by rw [hrest]) (by rw [hrest]) (by rw [hrest]) fun _ ha =>
      attended_checkRaises h hs ha
  | retriesRaise outcome n files =>
    obtain ⟨batch, buffered, -, -, -, -, -, hqueued⟩ := retriesRaise_cases h hs
    obtain ⟨hrest, -⟩ := rest_endDelete hqueued
    exact hk.stays (by rw [hrest]) (by rw [hrest]) (by rw [hrest]) fun _ ha =>
      attended_retriesRaise h hs ha
  | finish outcome wrote files => exact changeKept_finish h hk hok hs

/-- In a quiescent state nothing is left to be read. -/
theorem Quiescent.not_toRead (h : Quiescent s) : ¬ ToRead s p := by
  rintro (⟨m, hm, -⟩ | ⟨hactive, -⟩ | ⟨d, hd, -⟩)
  · rw [h.items] at hm
    cases hm
  · simp [State.active, h.worker] at hactive
  · rw [h.worker] at hd
    cases hd

end Steps

end ChunkHound.Realtime
