import ChunkHound.ChangeReadings

/-!
# Deletes are carried out

Whether the row of a deleted path goes. Once its deletion is reported, an event of the path
waits, or what came of one : a delete that no newer event has made stale, a delete that is
being carried out, or a reading, which finds no file and fails (`Settled`). A newer event makes
the pending delete stale, and takes its place. The row stays when that event is then dropped or
queues neither a change nor a delete, when the database puts off a delete that has become stale
meanwhile or returns and has not deleted the path, or when a path that cannot be normalised takes
the delete with it, which happens also to the others of its batch (`DropsDelete`).
-/

namespace ChunkHound.Realtime

open StepSystem

/-- A delete of the path is being carried out. -/
def Deleting (s : State) (p : String) : Prop :=
  ∃ batch buffered, s.worker = .deleting batch buffered ∧ ∃ m ∈ batch, m.path = p

/-- The database has no row of the path, and none is being written. -/
def Gone (s : State) (p : String) : Prop := s.rows p = false ∧ s.active p = false

/-- The row is gone, or a mutation that waits will remove it or fail. -/
def Handled (s : State) (p : String) : Prop :=
  Gone s p ∨ s.failedFiles p = true ∨ ToRead s p ∨
    s.queues.HasDelete s.latestSourceGeneration p

def Settled (s : State) (p : String) : Prop := Handled s p ∨ Deleting s p

/-- Something is left of the deletion beside its deletes. -/
def Left (s : State) (p : String) : Prop :=
  Gone s p ∨ s.failedFiles p = true ∨ ToRead s p ∨ ∃ e, (e, p) ∈ s.eventQueue

/-- An event of the path is taken that queues nothing for it, or a delete of it is put off and
stale, or not carried out although the database returns, or lost as a path cannot be normalised,
and nothing else is left of the deletion. -/
def DropsDelete (s : State) : Action → Prop
  | .consume inWindow => ∃ event path rest, s.eventQueue = (event, path) :: rest ∧
      (s.recentFileEvents path = some event ∧ inWindow = true ∨ event = .dirCreated ∨
        event = .dirDeleted) ∧
      s.deleteReported path = true ∧ ¬ (Settled s path ∨ ∃ e, (e, path) ∈ rest)
  | .consumeRaises => ∃ event path rest, s.eventQueue = (event, path) :: rest ∧
      s.deleteReported path = true ∧ ¬ (Settled s path ∨ ∃ e, (e, path) ∈ rest)
  | .retryRaises i => ∃ m, s.queues.retryTasks[i]? = some m ∧ s.deleteReported m.path = true ∧
      ¬ (Left s m.path ∨ Deleting s m.path)
  | .takeRaises => True
  | .checkRaises => ∃ m owned t path, s.next = some (m, owned, t) ∧
      (∃ d ∈ State.executable t.latestSourceGeneration (Queues.collectDeletes
        t.latestSourceGeneration (deleteBatchSize - 1) t.queues [(m, owned)]).1, d.path = path) ∧
      m.path ≠ path ∧ s.deleteReported path = true ∧ ¬ Left s path
  | .retriesRaise _ n deleted => ∃ batch buffered path, s.worker = .deleting batch buffered ∧
      (∃ m ∈ batch, m.path = path) ∧ path ∉ deleted ∧ s.held.getD "<unknown>" ≠ path ∧
      (∀ m ∈ batch.take n, m.path = path →
        m.stale s.latestSourceGeneration = true ∨ maxRetryBudget ≤ m.retryCount) ∧
      s.deleteReported path = true ∧ ¬ (Handled s path ∨ ∃ e, (e, path) ∈ s.eventQueue)
  | .finish outcome _ deleted => ∃ batch buffered path, s.worker = .deleting batch buffered ∧
      (∃ m ∈ batch, m.path = path) ∧ path ∉ deleted ∧ outcome ≠ .error ∧
      (outcome = .conflict ∨ outcome = .unavailable →
        ∀ m ∈ batch, m.path = path → m.stale s.latestSourceGeneration = true ∧
          (outcome = .unavailable → m.retryCount < maxRetryBudget)) ∧
      s.deleteReported path = true ∧ ¬ (Handled s path ∨ ∃ e, (e, path) ∈ s.eventQueue)
  | _ => False

/-- A path whose deletion was reported, and that was not written since. -/
def DeleteKept (s : State) (p : String) : Prop :=
  s.deleteReported p = true →
    s.disk p = false ∧ (Settled s p ∨ ∃ e, (e, p) ∈ s.eventQueue)

section Steps

variable {s s₁ s' : State} {p : String}

/-! ## Deletes that wait -/

/-- Whether a delete is stale depends on the generation of its path. -/
theorem hasDelete_latest {latest latest' : Generations} {q : Queues}
    (hsame : latest' p = latest p) (h : q.HasDelete latest p) : q.HasDelete latest' p := by
  obtain ⟨m, hm, hkey, hpend, hfresh⟩ := h
  refine ⟨m, hm, hkey, hpend, ?_⟩
  have hpath : m.path = p := congrArg Prod.snd hkey
  unfold Mutation.stale at hfresh ⊢
  rw [hpath] at hfresh ⊢
  rw [hsame]
  exact hfresh

/-- A step that leaves the rows and the worker alone. -/
theorem Handled.carried (h : Handled s p) (hc : Carries s s') (hrows : s'.rows p = s.rows p)
    (hfailed : s.failedFiles p = true → s'.failedFiles p = true)
    (hdelete : s.queues.HasDelete s.latestSourceGeneration p →
      s'.queues.HasDelete s'.latestSourceGeneration p) : Handled s' p := by
  rcases h with ⟨hr, ha⟩ | hf | ht | hd
  · exact Or.inl ⟨hrows.trans hr, (hc.active p).trans ha⟩
  · exact Or.inr (Or.inl (hfailed hf))
  · exact Or.inr (Or.inr (Or.inl (ht.carried hc)))
  · exact Or.inr (Or.inr (Or.inr (hdelete hd)))

theorem Handled.queued (h : Handled s p) (hq : Queued s s') : Handled s' p := by
  refine h.carried hq.carries ?_ (hq.failed p) fun hd => ?_
  · rw [hq.rest]
  · rw [hq.latest]
    exact hq.grows.delete p hd

theorem Deleting.carried (h : Deleting s p) (hworker : s'.worker = s.worker) : Deleting s' p := by
  obtain ⟨batch, buffered, hw, hm⟩ := h
  exact ⟨batch, buffered, hworker.trans hw, hm⟩

theorem Settled.queued (h : Settled s p) (hq : Queued s s') : Settled s' p :=
  h.imp (·.queued hq) (·.carried hq.worker)

/-- A step that takes no event of the path. -/
theorem DeleteKept.moved (hk : DeleteKept s p)
    (hreported : s'.deleteReported p = true → s.deleteReported p = true)
    (hdisk : s.disk p = false → s'.disk p = false)
    (hevents : ∀ e ∈ s.eventQueue, e ∈ s'.eventQueue)
    (hsettled : s.disk p = false → Settled s p → Settled s' p) : DeleteKept s' p := by
  intro hr
  obtain ⟨hd, hkept⟩ := hk (hreported hr)
  exact ⟨hdisk hd, hkept.imp (hsettled hd) fun ⟨e, he⟩ => ⟨e, hevents _ he⟩⟩

/-- A step that leaves the disk and the events as they are. -/
theorem DeleteKept.stays (hk : DeleteKept s p) (hreported : s'.deleteReported = s.deleteReported)
    (hdisk : s'.disk = s.disk) (hevents : s'.eventQueue = s.eventQueue)
    (hsettled : s.disk p = false → Settled s p → Settled s' p) : DeleteKept s' p :=
  hk.moved (fun hr => hreported ▸ hr) (fun hd => hdisk ▸ hd) (fun _ he => hevents ▸ he) hsettled

theorem deleteKept_queued (hk : DeleteKept s p) (hq : Queued s s') : DeleteKept s' p :=
  hk.stays (by rw [hq.rest]) (by rw [hq.rest]) hq.events fun _ h => h.queued hq

/-! ## Events -/

variable {path : String}

/-- An event of another path leaves the path as it is. -/
theorem settled_recordAccepted (h : s.queues.Wired) (event : EventType)
    (hpath : p ≠ path) (hs : Settled s p) : Settled (s.recordAccepted event path) p := by
  have hcarries := carries_recordAccepted h event path
  refine hs.imp (fun hh => hh.carried hcarries ?_ ?_ fun hd => ?_) (·.carried ?_)
  · cases event <;> rfl
  · cases event <;> exact id
  · rw [recordAccepted_latest]
    have hgrows : Queues.Grows s.latestSourceGeneration s.queues
        (s.recordAccepted event path).queues := by
      cases event <;> exact Queues.refreshPendingChange_grows h path _
    exact hasDelete_latest (Function.update_of_ne hpath ..) (hgrows.delete p hd)
  · cases event <;> rfl

/-- Only a delete of the path itself reports its deletion. -/
theorem recordAccepted_deleteReported (event : EventType) (hpath : p ≠ path) :
    (s.recordAccepted event path).deleteReported p = s.deleteReported p := by
  cases event with
  | deleted => exact Function.update_of_ne hpath ..
  | created => rfl
  | modified => rfl
  | dirCreated => rfl
  | dirDeleted => rfl

/-- A deletion is reported when there is no file. -/
theorem recordAccepted_absent (event : EventType) (hk : DeleteKept s path)
    (hr : (s.recordAccepted event path).deleteReported path = true) : s.disk path = false := by
  cases event with
  | deleted =>
    change Function.update s.deleteReported path (!s.disk path) path = true at hr
    rw [Function.update_self] at hr
    simpa using hr
  | created => exact (hk hr).1
  | modified => exact (hk hr).1
  | dirCreated => exact (hk hr).1
  | dirDeleted => exact (hk hr).1

theorem deleteKept_accept (h : Inv s) (hk : DeleteKept s p) (event : EventType) (path : String) :
    DeleteKept (s.accept event path) p := by
  have hdisk : (s.recordAccepted event path).disk = s.disk := by cases event <;> rfl
  rw [accept_eq]
  split
  · by_cases hpath : p = path
    · subst hpath
      intro hr
      refine ⟨?_, Or.inr ⟨event, List.mem_append_right _ (List.mem_singleton_self _)⟩⟩
      exact (congrFun hdisk p).trans (recordAccepted_absent event hk hr)
    · refine hk.moved (fun hr => (recordAccepted_deleteReported event hpath).symm.trans hr)
        (fun hd => (congrFun hdisk p).trans hd) (fun e he => List.mem_append_left _ he)
        fun _ hs => ?_
      have hsettled := settled_recordAccepted h.wired event hpath hs
      exact hsettled.imp (·.carried (.of_eq rfl rfl) rfl id id) (·.carried rfl)
  · exact hk

theorem deleteKept_consume (h : Inv s) (hk : DeleteKept s p) {inWindow : Bool}
    (hok : ¬ DropsDelete s (.consume inWindow)) (hs : s.consume inWindow = some s') :
    DeleteKept s' p := by
  obtain ⟨event, path, rest, hqueue, hlatest, hcase⟩ := consume_cases h hs
  have hwired : (s.remember event path rest).queues.Wired := h.wired
  have hmoved : ∀ t : State, t.queues = s.queues → t.worker = s.worker → t.rows = s.rows →
      t.failedFiles = s.failedFiles → t.latestSourceGeneration = s.latestSourceGeneration →
      Settled s p → Settled t p := by
    intro t hqueues hworker hrows hfailed hgen hsettled
    refine hsettled.imp (fun hh => hh.carried (.of_eq hqueues hworker) ?_ ?_ ?_)
      (·.carried hworker)
    · rw [hrows]
    · rw [hfailed]
      exact id
    · rw [hqueues, hgen]
      exact id
  -- an event that queues nothing for its path has to leave something else
  have hrest : s.deleteReported p = true →
      (path = p → (s.recentFileEvents path = some event ∧ inWindow = true ∨
        event = .dirCreated ∨ event = .dirDeleted)) →
      Settled s p ∨ ∃ e, (e, p) ∈ rest := by
    intro hr hnothing
    rcases (hk hr).2 with hsettled | ⟨e, he⟩
    · exact Or.inl hsettled
    · rw [hqueue] at he
      rcases List.mem_cons.1 he with heq | he
      · obtain ⟨rfl, rfl⟩ := Prod.mk.inj heq
        by_contra hnone
        exact hok ⟨e, p, rest, hqueue, hnothing rfl, hr, hnone⟩
      · exact Or.inr ⟨e, he⟩
  rcases hcase with ⟨hrecent, hwindow, rfl⟩ | rfl
  · intro hr
    refine ⟨(hk hr).1, ?_⟩
    exact (hrest hr fun _ => Or.inl ⟨hrecent, hwindow⟩).imp_left
      (hmoved { s with eventQueue := rest } rfl rfl rfl rfl rfl)
  · have hqueued := queued_handleEvent hwired event hlatest
    intro hr
    rw [hqueued.rest] at hr
    refine ⟨?_, ?_⟩
    · rw [hqueued.rest]
      exact (hk hr).1
    · rw [hqueued.events]
      have hkeep : Settled s p ∨ (∃ e, (e, p) ∈ rest) →
          Settled ((s.remember event path rest).handleEvent event path) p ∨ ∃ e, (e, p) ∈ rest :=
        Or.imp_left fun hsettled =>
          (hmoved (s.remember event path rest) rfl rfl rfl rfl rfl hsettled).queued hqueued
      by_cases hpath : path = p
      · subst hpath
        cases event with
        | created =>
          exact Or.inl (Or.inl (Or.inr (Or.inr (Or.inl
            (toRead_handleEvent hwired hlatest (Or.inl rfl))))))
        | modified =>
          exact Or.inl (Or.inl (Or.inr (Or.inr (Or.inl
            (toRead_handleEvent hwired hlatest (Or.inr rfl))))))
        | deleted =>
          exact Or.inl (Or.inl (Or.inr (Or.inr (Or.inr
            (Queues.enqueueNew_hasDelete hwired hlatest)))))
        | dirCreated => exact hkeep (hrest hr fun _ => Or.inr (Or.inl rfl))
        | dirDeleted => exact hkeep (hrest hr fun _ => Or.inr (Or.inr rfl))
      · exact hkeep (hrest hr fun heq => absurd heq hpath)

/-- An event whose path cannot be normalised is lost. -/
theorem deleteKept_consumeRaises (hk : DeleteKept s p) (hok : ¬ DropsDelete s .consumeRaises)
    (hs : s.consumeRaises = some s') : DeleteKept s' p := by
  obtain ⟨event, path, rest, hqueue, rfl⟩ := consumeRaises_cases hs
  intro hr
  refine ⟨(hk hr).1, ?_⟩
  have hleft : Settled s p ∨ ∃ e, (e, p) ∈ rest := by
    rcases (hk hr).2 with hsettled | ⟨e, he⟩
    · exact Or.inl hsettled
    · rw [hqueue] at he
      rcases List.mem_cons.1 he with heq | he
      · obtain ⟨rfl, rfl⟩ := Prod.mk.inj heq
        by_contra hnone
        exact hok ⟨e, p, rest, hqueue, hr, hnone⟩
      · exact Or.inr ⟨e, he⟩
  exact hleft.imp_left fun hsettled =>
    hsettled.imp (·.carried (.of_eq rfl rfl) rfl id id) (·.carried rfl)

theorem deleteKept_pollChanged (h : Inv s) (hk : DeleteKept s p) (path : String) :
    DeleteKept (s.pollChanged path) p := by
  by_cases hpath : p = path
  · subst hpath
    intro hr
    refine ⟨?_, Or.inl (Or.inl (Or.inr (Or.inr (Or.inl (toRead_pollChanged h p)))))⟩
    rw [pollChanged_eq] at hr ⊢
    split at hr
    · rename_i hadmitted
      rw [if_pos hadmitted]
      exact (hk hr).1
    · rename_i hrefused
      rw [if_neg hrefused]
      exact (hk hr).1
  · have hadded := queued_addFile h.wired path .change
    have hkadded := deleteKept_queued hk hadded
    rw [pollChanged_eq]
    split
    · exact hkadded.moved id id (fun _ => id) fun _ hs =>
        settled_recordAccepted hadded.grows.wired .modified hpath hs
    · refine hkadded.moved id id (fun _ => id) fun _ hs => ?_
      have hcarries := carries_pollRefused h path
      refine hs.imp (fun hh => hh.carried hcarries rfl id fun hd => ?_) (·.carried rfl)
      exact hasDelete_latest (Function.update_of_ne hpath ..)
        ((grows_pollRefused h path s.latestSourceGeneration).delete p hd)

theorem deleteKept_pollDeleted (h : Inv s) (hk : DeleteKept s p) (path : String) :
    DeleteKept (s.pollDeleted path) p := by
  have hrecorded := inv_recordAccepted h .deleted path
  have hlatest := recordAccepted_isSome s .deleted path
  have hqueued : Queued (s.recordAccepted .deleted path) (s.pollDeleted path) :=
    queued_enqueue hrecorded.wired fun _ => hlatest
  by_cases hpath : p = path
  · subst hpath
    intro hr
    have hreported : (s.recordAccepted .deleted p).deleteReported p = true := hr
    have hdelete := Queues.enqueueNew_hasDelete hrecorded.wired hlatest
    have hdisk : s.disk p = false := recordAccepted_absent .deleted hk hreported
    exact ⟨hdisk, Or.inl (Or.inl (Or.inr (Or.inr (Or.inr hdelete))))⟩
  · have hkrecorded : DeleteKept (s.recordAccepted .deleted path) p := by
      refine hk.moved (fun hr => ?_) id (fun _ => id) fun _ hs => ?_
      · exact (recordAccepted_deleteReported .deleted hpath).symm.trans hr
      · exact settled_recordAccepted h.wired .deleted hpath hs
    exact deleteKept_queued hkrecorded hqueued

theorem deleteKept_write (hk : DeleteKept s p) (path : String) :
    DeleteKept (s.write path) p := by
  by_cases hpath : p = path
  · subst hpath
    intro hr
    simp [State.write] at hr
  · have hsame : ∀ (f : String → Bool) (b : Bool), Function.update f path b p = f p := fun f b =>
      Function.update_of_ne hpath b f
    refine hk.moved (fun hr => (hsame s.deleteReported false).symm.trans hr)
      (fun hd => (hsame s.disk true).trans hd) (fun _ => id) fun _ hs => ?_
    refine hs.imp (·.carried (carries_write s path) rfl id id) ?_
    rintro ⟨batch, buffered, hworker, hm⟩
    exact ⟨batch, buffered, by simp [State.write, hworker], hm⟩

/-! ## The worker -/

variable {m : Mutation}

variable {owned : Bool}

theorem active_begin (hdisk : s.disk p = false) :
    (s.begin m owned).active p = false := by
  have hother : ∀ {path}, s.disk path = true → path ≠ p := by
    rintro path hfile rfl
    rw [hdisk] at hfile
    cases hfile
  unfold State.begin
  split
  · split
    · exact decide_eq_false (hother ‹_›)
    · rfl
  · split
    · exact decide_eq_false (hother ‹_›)
    · rfl
  · simp only
    split <;> rfl
  · rfl
  · rfl
  · rfl

theorem mem_executable {latest : Generations} {batch : List (Mutation × Bool)}
    {d : Mutation × Bool} (hd : d ∈ batch) (howned : d.2 = true)
    (hfresh : d.1.stale latest = false) : d.1 ∈ State.executable latest batch := by
  refine List.mem_map_of_mem (List.mem_filter.2 ⟨hd, ?_⟩)
  rw [howned, hfresh]
  rfl

/-- A batch that has a delete to carry out carries it out. -/
theorem deleting_begin {m d : Mutation} (hop : m.operation = .delete)
    (hd : d ∈ State.executable s.latestSourceGeneration (Queues.collectDeletes
      s.latestSourceGeneration (deleteBatchSize - 1) s.queues [(m, owned)]).1) :
    Deleting (s.begin m owned) d.path := by
  unfold State.begin
  simp only [hop]
  split
  · rename_i hnil
    rw [hnil] at hd
    cases hd
  · exact ⟨_, _, rfl, d, hd, rfl⟩

theorem begin_queues (hop : m.operation ≠ .delete) :
    (s.begin m owned).queues = s.queues := by
  unfold State.begin
  split
  · split <;> rfl
  · split <;> rfl
  · rename_i hdelete
    exact absurd hdelete hop
  · rfl
  · rfl
  · rfl

/-- A delete that waits goes on waiting, or is carried out with the batch. -/
theorem hasDelete_begin (h : s.queues.Wired) (m : Mutation) (owned : Bool)
    (hp : s.queues.HasDelete s.latestSourceGeneration p) :
    (s.begin m owned).queues.HasDelete s.latestSourceGeneration p ∨
      Deleting (s.begin m owned) p := by
  by_cases hop : m.operation = .delete
  · have hc := Queues.collectDeletes_collected s.latestSourceGeneration (deleteBatchSize - 1)
      [(m, owned)] h
    rcases hc.delete p hp with hstill | ⟨d, hd, hkey, howned, hfresh⟩
    · refine Or.inl ?_
      unfold State.begin
      simp only [hop]
      split <;> exact hstill
    · have hpath : d.1.path = p := congrArg Prod.snd hkey
      rw [← hpath]
      exact Or.inr (deleting_begin hop (mem_executable hd howned hfresh))
  · rw [begin_queues hop]
    exact Or.inl hp

theorem settled_take (h : Inv s) (hs : s.take = some s') (hdisk : s.disk p = false)
    (hp : Settled s p) : Settled s' p := by
  obtain ⟨hrest, hfailed⟩ := take_rest h hs
  rcases hp with (⟨hr, -⟩ | hf | ht | hd) | ⟨batch, buffered, hworker, -⟩
  · obtain ⟨t, m, owned, ht, rfl⟩ := take_cases h hs
    refine Or.inl (Or.inl ⟨?_, active_begin ?_⟩)
    · rw [hrest]
      exact hr
    · rw [ht.rest]
      exact hdisk
  · exact Or.inl (Or.inr (Or.inl (hfailed p hf)))
  · rcases toRead_take h hs ht with ht | ⟨hfile, -⟩ | ⟨-, hf⟩
    · exact Or.inl (Or.inr (Or.inr (Or.inl ht)))
    · rw [hdisk] at hfile
      cases hfile
    · exact Or.inl (Or.inr (Or.inl hf))
  · obtain ⟨t, m, owned, ht, rfl⟩ := take_cases h hs
    have hsame : t.latestSourceGeneration = s.latestSourceGeneration := by rw [ht.rest]
    have hlatest : (t.begin m owned).latestSourceGeneration = t.latestSourceGeneration := by
      rw [begin_rest]
    have hend : t.queues.HasDelete t.latestSourceGeneration p ∨ Deleting (t.begin m owned) p →
        Settled (t.begin m owned) p := by
      rintro (hwaits | hdeleting)
      · rw [Settled, Handled, hlatest]
        exact (hasDelete_begin ht.wired m owned hwaits).imp_left
          fun hd => Or.inr (Or.inr (Or.inr hd))
      · exact Or.inr hdeleting
    refine hend ?_
    rw [hsame]
    refine (ht.delete p hd).imp_right fun ⟨hkey, howned, hfresh⟩ => ?_
    -- the first of its batch
    subst howned
    have hc := Queues.collectDeletes_collected t.latestSourceGeneration (deleteBatchSize - 1)
      [(m, true)] ht.wired
    have hpath : m.path = p := congrArg Prod.snd hkey
    rw [← hpath]
    refine deleting_begin (congrArg Prod.fst hkey) ?_
    exact mem_executable (hc.batched _ (List.mem_singleton_self _)) rfl (hsame ▸ hfresh)
  · obtain ⟨t, m, owned, ht, -⟩ := take_cases h hs
    obtain ⟨buffered', hidle⟩ := ht.idle
    rw [hidle] at hworker
    cases hworker

/-- What a step for one element of a list establishes is kept by those for the others. -/
theorem foldl_establishes {β : Type*} {f : State → β → State} {P : β → Prop} {R : State → Prop}
    (hf : ∀ s b, s.queues.Wired → P b → Queued s (f s b))
    (hkeep : ∀ s s', Queued s s' → R s → R s') {bs : List β} (hP : ∀ b ∈ bs, P b)
    (hw : s.queues.Wired) {b : β} (hb : b ∈ bs) (hest : ∀ t, Queued s t → R (f t b)) :
    R (bs.foldl f s) := by
  obtain ⟨before, after, rfl⟩ := List.append_of_mem hb
  rw [List.foldl_append, List.foldl_cons]
  have hbefore := queued_foldl hf before hw fun c hc => hP c (List.mem_append_left _ hc)
  have hone := hf _ b hbefore.grows.wired (hP b hb)
  have hafter := queued_foldl hf after hone.grows.wired fun c hc =>
    hP c (List.mem_append_right _ (List.mem_cons_of_mem b hc))
  exact hkeep _ _ hafter (hest _ hbefore)

/-- The delete of the path waits, or failed. -/
def PutOff (p : String) (s : State) : Prop :=
  s.queues.HasDelete s.latestSourceGeneration p ∨ s.failedFiles p = true

theorem PutOff.queued (hq : Queued s s') (h : PutOff p s) : PutOff p s' :=
  h.imp (fun hd => hq.latest ▸ hq.grows.delete p hd) (hq.failed p)

theorem PutOff.handled (h : PutOff p s) : Handled s p :=
  h.elim (fun hd => Or.inr (Or.inr (Or.inr hd))) fun hf => Or.inr (Or.inl hf)

/-- A delete that is not stale is retried, or fails. -/
theorem putOff_retryOrFail (h : s.queues.Wired) (hop : m.operation = .delete)
    (hdated : Dated m) (hleft : m.stale s.latestSourceGeneration = false ∨
      maxRetryBudget ≤ m.retryCount) : PutOff m.path (s.retryOrFail m) := by
  unfold State.retryOrFail
  split
  · rename_i q hq
    refine Or.inl ((Queues.scheduleRetry_spec h hdated hq).2.2 hop (hleft.resolve_right ?_))
    intro hbudget
    simp [Queues.scheduleRetry, hbudget] at hq
  · exact Or.inr (fail_self s m.path)

theorem putOff_retryDelete (h : s.queues.Wired) (hop : m.operation = .delete)
    (hdated : Dated m) (hfresh : m.stale s.latestSourceGeneration = false) :
    PutOff m.path (s.retryDelete m) := by
  have hretry := putOff_retryOrFail h hop hdated (Or.inl hfresh)
  unfold State.retryDelete Queues.scheduleDeleteRetry
  simp only [hfresh, Bool.false_eq_true, if_false]
  exact hretry

variable {outcome : Outcome}

variable {batch : List Mutation}

/-- A delete of the batch that is not carried out waits again or fails, unless it is stale. -/
theorem putOff_finishDelete (h : s.queues.Wired)
    (hbatch : ∀ m ∈ batch, m.operation = .delete ∧ Dated m)
    (buffered : Option (Mutation × Bool)) (deleted : List String)
    (hm : m ∈ batch) (hleft : outcome = .error ∨
      (outcome = .conflict ∨ outcome = .unavailable) ∧
        (m.stale s.latestSourceGeneration = false ∨
          outcome = .unavailable ∧ maxRetryBudget ≤ m.retryCount)) :
    PutOff m.path (s.finishDelete batch buffered outcome deleted) := by
  obtain ⟨hop, hdated⟩ := hbatch m hm
  have hall : ∀ m ∈ batch, Dated m := fun m hm => (hbatch m hm).2
  have hw : (s.endDelete batch buffered deleted).queues.Wired := h
  unfold State.finishDelete
  simp only
  split
  · simp at hleft
  · simp at hleft
  · refine foldl_establishes (f := State.retryDelete) (P := Dated)
      (fun _ _ hw hm => queued_retryDelete hw hm) (fun _ _ => PutOff.queued) hall hw hm
      fun t ht => putOff_retryDelete ht.grows.wired hop hdated ?_
    rw [ht.latest]
    have hfresh : m.stale s.latestSourceGeneration = false := by simpa using hleft
    exact hfresh
  · refine foldl_establishes (f := State.retryOrFail) (P := Dated)
      (fun _ _ hw hm => queued_retryOrFail hw hm) (fun _ _ => PutOff.queued) hall hw hm
      fun t ht => putOff_retryOrFail ht.grows.wired hop hdated ?_
    rw [ht.latest]
    have hwaits : m.stale s.latestSourceGeneration = false ∨ maxRetryBudget ≤ m.retryCount := by
      simpa using hleft
    exact hwaits
  · exact foldl_establishes (P := Dated) (fun _ m hw _ => queued_fail hw m.path)
      (fun _ _ => PutOff.queued) hall hw hm fun t _ => Or.inr (fail_self t m.path)

/-- A delete that is put off waits again while its retries last, unless it is stale. -/
theorem putOff_reschedule (h : s.queues.Wired) (hop : m.operation = .delete) (hdated : Dated m)
    (hfresh : m.stale s.latestSourceGeneration = false) (hbudget : m.retryCount < maxRetryBudget) :
    PutOff m.path (s.reschedule outcome m) := by
  have hretry : ∃ q, s.queues.scheduleRetry m = some q := by
    unfold Queues.scheduleRetry
    rw [if_neg (Nat.not_le.2 hbudget)]
    simp only
    split
    · exact ⟨_, rfl⟩
    · exact ⟨_, rfl⟩
  obtain ⟨q, hq⟩ := hretry
  have heq : (if outcome = .conflict then
      s.queues.scheduleDeleteRetry s.latestSourceGeneration m else s.queues.scheduleRetry m) =
      some q := by
    split
    · rw [Queues.scheduleDeleteRetry, hfresh]
      exact hq
    · exact hq
  unfold State.reschedule
  rw [heq]
  exact Or.inl ((Queues.scheduleRetry_spec h hdated hq).2.2 hop hfresh)

variable {deleted : List String}

variable {buffered : Option (Mutation × Bool)}

/-- The row of a path that the database deleted is gone. -/
theorem gone_endDelete (hm : m ∈ batch) (hmem : m.path ∈ deleted) :
    Gone (s.endDelete batch buffered deleted) m.path := by
  refine ⟨?_, rfl⟩
  simp only [State.endDelete, Bool.and_eq_false_imp, Bool.not_eq_false', List.any_eq_true,
    decide_eq_true_eq]
  exact fun _ => ⟨m, hm, rfl, hmem⟩

/-- What is handled stays so when a batch ends. -/
theorem handled_endDelete (hworker : s.worker = .deleting batch buffered) (hp : Handled s p) :
    Handled (s.endDelete batch buffered deleted) p := by
  rcases hp with ⟨hr, -⟩ | hf | ht | hd
  · refine Or.inl ⟨?_, rfl⟩
    simp [State.endDelete, hr]
  · exact Or.inr (Or.inl hf)
  · have hidle := toRead_idle ht (by simp [State.active, hworker])
    rw [hworker] at hidle
    exact Or.inr (Or.inr (Or.inl (hidle.carried (.of_eq rfl rfl))))
  · exact Or.inr (Or.inr (Or.inr hd))

variable {files : List String}

/-- What is handled stays so when the worker is done. -/
theorem handled_finish (h : Inv s) {wrote : Bool}
    (hs : s.finish outcome wrote files = some s') (hp : Handled s p) : Handled s' p := by
  obtain ⟨hrest, -, hfailed⟩ := finish_rest h hs
  have hlatest : s'.latestSourceGeneration = s.latestSourceGeneration := by rw [hrest]
  have hworker := h.worker
  rcases finish_cases h hs with ⟨m, fresh, hw, rfl⟩ | ⟨batch, buffered, hw, rfl⟩ | ⟨-, hqueued⟩
  · rw [hw] at hworker
    have hended := ended_finishProcessing h hworker fresh outcome wrote
    rcases hp with ⟨hr, ha⟩ | hf | ht | hd
    · refine Or.inl ⟨(hended.rows p ?_).trans hr, ?_⟩
      · simpa [State.active, hw] using ha
      · rw [State.active, hended.worker]
    · exact Or.inr (Or.inl (hfailed p hf))
    · exact Or.inr (Or.inr (Or.inl (toRead_finish h hs ht)))
    · exact Or.inr (Or.inr (Or.inr (hlatest ▸ hended.delete p hd)))
  · rw [hw] at hworker
    exact (handled_endDelete hw hp).queued
      (queued_finishDelete h.wired (fun m hm => (hworker.1 m hm).2) buffered outcome files)
  · rcases hp with ⟨hr, -⟩ | hf | ht | hd
    · refine Or.inl ⟨?_, ?_⟩
      · rw [hqueued.rest]
        exact hr
      · rw [State.active, hqueued.worker]
    · exact Or.inr (Or.inl (hfailed p hf))
    · exact Or.inr (Or.inr (Or.inl (toRead_finish h hs ht)))
    · exact Or.inr (Or.inr (Or.inr (hlatest ▸ hqueued.grows.delete p hd)))

theorem deleteKept_finish (h : Inv s) (hk : DeleteKept s p) {wrote : Bool}
    (hok : ¬ DropsDelete s (.finish outcome wrote files))
    (hs : s.finish outcome wrote files = some s') : DeleteKept s' p := by
  obtain ⟨hrest, -⟩ := finish_rest h hs
  have hevents : s'.eventQueue = s.eventQueue := by rw [hrest]
  intro hr
  rw [hrest] at hr
  obtain ⟨hd, hkept⟩ := hk hr
  refine ⟨?_, ?_⟩
  · rw [hrest]
    exact hd
  · rw [hevents]
    have hhandled : Handled s p ∨ (∃ e, (e, p) ∈ s.eventQueue) →
        Settled s' p ∨ ∃ e, (e, p) ∈ s.eventQueue :=
      Or.imp_left fun hh => Or.inl (handled_finish h hs hh)
    rcases hkept with (hh | ⟨batch, buffered, hw, m, hm, rfl⟩) | hevent
    · exact hhandled (Or.inl hh)
    · have hworker := h.worker
      rw [hw] at hworker
      simp only [State.finish, hw] at hs
      obtain rfl := Option.some.inj hs
      by_cases hmem : m.path ∈ files
      · have hgone : Handled (s.endDelete batch buffered files) m.path :=
          Or.inl (gone_endDelete hm hmem)
        exact Or.inl (Or.inl (hgone.queued
          (queued_finishDelete h.wired (fun m hm => (hworker.1 m hm).2) buffered outcome files)))
      by_cases hput : ∃ d ∈ batch, d.path = m.path ∧ (outcome = .error ∨
          (outcome = .conflict ∨ outcome = .unavailable) ∧
            (d.stale s.latestSourceGeneration = false ∨
              outcome = .unavailable ∧ maxRetryBudget ≤ d.retryCount))
      · obtain ⟨d, hd, hpath, hleft⟩ := hput
        rw [← hpath]
        have hoff := putOff_finishDelete h.wired hworker.1 buffered files hd hleft
        exact Or.inl (Or.inl hoff.handled)
      · refine hhandled ?_
        by_contra hnone
        refine hok ⟨batch, buffered, m.path, hw, ⟨m, hm, rfl⟩, hmem, fun herror =>
          hput ⟨m, hm, rfl, Or.inl herror⟩, fun hout d hd hpath => ⟨?_, fun hunavailable => ?_⟩,
          hr, hnone⟩
        · by_contra hfresh
          exact hput ⟨d, hd, hpath, Or.inr ⟨hout, Or.inl (by simpa using hfresh)⟩⟩
        · by_contra hbudget
          exact hput ⟨d, hd, hpath, Or.inr ⟨hout, Or.inr ⟨hunavailable, Nat.not_lt.1 hbudget⟩⟩⟩
    · exact Or.inr hevent

/-- A batch that is put off, up to a path that cannot be normalised. -/
theorem deleteKept_retriesRaise (h : Inv s) (hk : DeleteKept s p) {n : ℕ}
    (hok : ¬ DropsDelete s (.retriesRaise outcome n deleted))
    (hs : s.retriesRaise outcome n deleted = some s') : DeleteKept s' p := by
  obtain ⟨batch, buffered, hw, hbatch, -, -, heq, hqueued⟩ := retriesRaise_cases h hs
  obtain ⟨hrest, -⟩ := rest_endDelete hqueued
  have hevents : s'.eventQueue = s.eventQueue := by rw [hrest]
  intro hr
  rw [hrest] at hr
  obtain ⟨hd, hkept⟩ := hk hr
  refine ⟨?_, ?_⟩
  · rw [hrest]
    exact hd
  · rw [hevents]
    have hhandled : Handled s p → Settled s' p := fun hh =>
      Or.inl ((handled_endDelete hw hh).queued hqueued)
    rcases hkept with (hh | ⟨batch', buffered', hw', m, hm, rfl⟩) | hevent
    · exact Or.inl (hhandled hh)
    · rw [hw] at hw'
      obtain ⟨rfl, rfl⟩ := Worker.deleting.inj hw'
      by_cases hmem : m.path ∈ deleted
      · have hgone : Handled (s.endDelete batch buffered deleted) m.path :=
          Or.inl (gone_endDelete hm hmem)
        exact Or.inl (Or.inl (hgone.queued hqueued))
      by_cases hheld : s.held.getD "<unknown>" = m.path
      · refine Or.inl (Or.inl (Or.inr (Or.inl ?_)))
        rw [heq, hheld]
        exact fail_self _ _
      by_cases hput : ∃ d ∈ batch.take n, d.path = m.path ∧
          d.stale s.latestSourceGeneration = false ∧ d.retryCount < maxRetryBudget
      · obtain ⟨d, hd, hpath, hfresh, hbudget⟩ := hput
        obtain ⟨hop, hdated⟩ := hbatch d (List.mem_of_mem_take hd)
        have hoff : PutOff d.path ((batch.take n).foldl (fun s m => s.reschedule outcome m)
            (s.endDelete batch buffered deleted)) :=
          foldl_establishes (P := Dated) (fun _ _ hw hm => queued_reschedule hw outcome hm)
            (fun _ _ => PutOff.queued) (fun m hm => (hbatch m (List.mem_of_mem_take hm)).2)
            h.wired hd fun t ht => putOff_reschedule ht.grows.wired hop hdated
              (by rw [ht.latest]; exact hfresh) hbudget
        rw [← hpath, heq]
        refine Or.inl (Or.inl (PutOff.handled (hoff.imp id fun hf => ?_)))
        exact fail_mono _ _ hf
      · by_cases hleft : Handled s m.path ∨ ∃ e, (e, m.path) ∈ s.eventQueue
        · exact hleft.imp_left hhandled
        · refine absurd ⟨batch, buffered, m.path, hw, ⟨m, hm, rfl⟩, hmem, hheld,
            fun d hd hpath => ?_, hr, hleft⟩ hok
          by_contra hnone
          rw [not_or, Bool.not_eq_true, Nat.not_le] at hnone
          exact hput ⟨d, hd, hpath, hnone⟩
    · exact Or.inr hevent

/-- A batch that is taken, and whose check raises. -/
theorem deleteKept_checkRaises (h : Inv s) (hk : DeleteKept s p)
    (hok : ¬ DropsDelete s .checkRaises) (hs : s.checkRaises = some s') : DeleteKept s' p := by
  obtain ⟨hrest, hfailed⟩ := checkRaises_rest h hs
  have hevents : s'.eventQueue = s.eventQueue := by rw [hrest]
  have hlatest : s'.latestSourceGeneration = s.latestSourceGeneration := by rw [hrest]
  have hrows : s'.rows = s.rows := by rw [hrest]
  intro hr
  rw [hrest] at hr
  obtain ⟨hd, hkept⟩ := hk hr
  refine ⟨?_, ?_⟩
  · rw [hrest]
    exact hd
  · rw [hevents]
    obtain ⟨⟨m, owned, t⟩, hn, hbegin⟩ := Option.bind_eq_some_iff.1 hs
    have ht := takes_next h hn
    obtain ⟨_, hidle⟩ := ht.idle
    have hsame : t.latestSourceGeneration = s.latestSourceGeneration := by rw [ht.rest]
    simp only at hbegin
    split at hbegin
    swap
    · cases hbegin
    have hc := Queues.collectDeletes_collected t.latestSourceGeneration (deleteBatchSize - 1)
      [(m, owned)] ht.wired
    have heq := (Option.some.inj hbegin).symm
    have hleft : Left s p → Settled s' p ∨ ∃ e, (e, p) ∈ s.eventQueue := by
      rintro (⟨hrow, -⟩ | hf | htr | he)
      · refine Or.inl (Or.inl (Or.inl ⟨hrows ▸ hrow, ?_⟩))
        rw [heq]
        rfl
      · exact Or.inl (Or.inl (Or.inr (Or.inl (hfailed p hf))))
      · exact Or.inl (Or.inl (Or.inr (Or.inr (Or.inl (toRead_checkRaises h hs htr)))))
      · exact Or.inr he
    by_cases hpath : m.path = p
    · subst hpath
      refine Or.inl (Or.inl (Or.inr (Or.inl ?_)))
      rw [heq]
      exact fail_self _ _
    rcases hkept with ((hg | hf | htr | hdel) | ⟨batch, buffered, hw, -⟩) | he
    · exact hleft (Or.inl hg)
    · exact hleft (Or.inr (Or.inl hf))
    · exact hleft (Or.inr (Or.inr (Or.inl htr)))
    · have hwaits := (ht.delete p hdel).resolve_right fun hm => hpath (congrArg Prod.snd hm.1)
      rcases hc.delete p (hsame ▸ hwaits) with hstill | ⟨d, hdb, hkey, howned, hfresh⟩
      · refine Or.inl (Or.inl (Or.inr (Or.inr (Or.inr ?_))))
        rw [hlatest, ← hsame, heq]
        exact hstill
      · refine hleft ?_
        by_contra hnone
        exact hok ⟨m, owned, t, p, hn, ⟨d.1, mem_executable hdb howned hfresh,
          congrArg Prod.snd hkey⟩, hpath, hr, hnone⟩
    · rw [hidle] at hw
      cases hw
    · exact Or.inr he

/-- A retry whose path cannot be normalised. -/
theorem deleteKept_retryRaises (h : Inv s) (hk : DeleteKept s p) {i : ℕ} {q : Queues}
    (hok : ¬ DropsDelete s (.retryRaises i)) (hq : s.queues.retryRaises i = some q) :
    DeleteKept { s with queues := q } p := by
  obtain ⟨m, hi, hop, ht⟩ : ∃ m, s.queues.retryTasks[i]? = some m ∧ m.operation = .delete ∧
      Queues.Taken s.latestSourceGeneration s.queues q m true :=
    Queues.retryRaises_taken h.wired hq
  have hcarries : Carries s { s with queues := q } := by
    refine ⟨fun p hp => (ht.change p hp).resolve_right ?_, fun p hp hnone => ?_, fun _ => rfl, rfl⟩
    · rintro ⟨hread | hread, -⟩ <;> simp [hop] at hread
    · exact hp (ht.reserved ▸ hnone)
  intro hr
  obtain ⟨hd, hkept⟩ := hk hr
  refine ⟨hd, ?_⟩
  have hleft : Left s p ∨ Deleting s p →
      Settled { s with queues := q } p ∨ ∃ e, (e, p) ∈ s.eventQueue := by
    rintro ((hg | hf | htr | he) | hdeleting)
    · exact Or.inl (Or.inl (Or.inl hg))
    · exact Or.inl (Or.inl (Or.inr (Or.inl hf)))
    · exact Or.inl (Or.inl (Or.inr (Or.inr (Or.inl (htr.carried hcarries)))))
    · exact Or.inr he
    · exact Or.inl (Or.inr (hdeleting.carried rfl))
  rcases hkept with ((hg | hf | htr | hdel) | hdeleting) | he
  · exact hleft (Or.inl (Or.inl hg))
  · exact hleft (Or.inl (Or.inr (Or.inl hf)))
  · exact hleft (Or.inl (Or.inr (Or.inr (Or.inl htr))))
  · rcases ht.delete p hdel with hstill | ⟨hkey, -⟩
    · exact Or.inl (Or.inl (Or.inr (Or.inr (Or.inr hstill))))
    · obtain rfl : m.path = p := congrArg Prod.snd hkey
      refine hleft ?_
      by_contra hnone
      exact hok ⟨m, hi, hr, hnone⟩
  · exact hleft (Or.inr hdeleting)
  · exact Or.inr he

theorem deleteKept_step (h : Inv s) (hk : DeleteKept s p) {a : Action} (hok : ¬ DropsDelete s a)
    (hs : step s a = some s') : DeleteKept s' p := by
  cases a with
  | write path =>
    obtain rfl := Option.some.inj hs
    exact deleteKept_write hk path
  | unlink path =>
    simp only [step] at hs
    split at hs
    · obtain rfl := Option.some.inj hs
      refine hk.moved id (fun hd => ?_) (fun _ => id) fun _ hsettled =>
        hsettled.imp (·.carried (.of_eq rfl rfl) rfl id id) (·.carried rfl)
      simp only [Function.update_apply]
      split
      · rfl
      · exact hd
    · cases hs
  | accept event path =>
    obtain rfl := Option.some.inj hs
    exact deleteKept_accept h hk event path
  | consume inWindow => exact deleteKept_consume h hk hok hs
  | consumeRaises => exact deleteKept_consumeRaises hk hok hs
  | forget path =>
    obtain rfl := Option.some.inj hs
    exact hk.moved id id (fun _ => id) fun _ hsettled =>
      hsettled.imp (·.carried (.of_eq rfl rfl) rfl id id) (·.carried rfl)
  | pollChanged path =>
    obtain rfl := Option.some.inj hs
    exact deleteKept_pollChanged h hk path
  | pollDeleted path =>
    obtain rfl := Option.some.inj hs
    exact deleteKept_pollDeleted h hk path
  | addFile path priority =>
    obtain rfl := Option.some.inj hs
    exact deleteKept_queued hk (queued_addFile h.wired path priority)
  | debounceFires i =>
    obtain ⟨q, hq, rfl⟩ := Option.map_eq_some_iff.1 hs
    exact deleteKept_queued hk ⟨Queues.debounceFires_grows h.wired hq, rfl, fun _ => id⟩
  | retryFires i =>
    obtain ⟨q, hq, rfl⟩ := Option.map_eq_some_iff.1 hs
    exact deleteKept_queued hk ⟨Queues.retryFires_grows h.wired hq, rfl, fun _ => id⟩
  | take =>
    obtain ⟨hrest, -⟩ := take_rest h hs
    exact hk.stays (by rw [hrest]) (by rw [hrest]) (by rw [hrest]) fun hd hsettled =>
      settled_take h hs hd hsettled
  | retryRaises i =>
    obtain ⟨q, hq, rfl⟩ := Option.map_eq_some_iff.1 hs
    exact deleteKept_retryRaises h hk hok hq
  | takeRaises => exact absurd trivial hok
  | checkRaises => exact deleteKept_checkRaises h hk hok hs
  | retriesRaise outcome n files => exact deleteKept_retriesRaise h hk hok hs
  | finish outcome wrote files => exact deleteKept_finish h hk hok hs

end Steps

end ChunkHound.Realtime
