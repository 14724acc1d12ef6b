import ChunkHound.ConcurrentStores

/-!
# A store that raises

`_store_parsed_results` alone on its connection, one executor operation at a time. Any of them
may raise, before or after it takes effect, or be cancelled while it is awaited. What raises
after an operation and before the next, such as a progress update, counts with the former.

Where a `COMMIT` that takes effect returns and the handlers' `ROLLBACK`s take effect, the
committed tables are those of the files whose store returned, stored one after the other
(`atomic_of_faithful`) : a store that raises leaves nothing, and the next one begins outside of
any transaction. The executor goes on with a `COMMIT` whose await is cancelled, and a progress
update comes after it inside the same `try` : either way the file is stored and given up
(`cancelled_commit`).
-/

namespace ChunkHound.Stores

open CrashHoare StepSystem

/-! ## One coroutine -/

/-- `returned` are the files whose store returned, in order. -/
structure SingleRun where
  db : StoreDb
  store : Store
  returned : List ParsedFileResult
  isCancelled : Bool

/-- What becomes of the next operation, and whether the coroutine is cancelled while it awaits
it. -/
structure SingleStep where
  outcome : Outcome
  isCancelled : Bool
  deriving DecidableEq

/-- The file whose store returns with the next operation. -/
def Store.returning (o : Outcome) (db : StoreDb) (st : Store) : List ParsedFileResult :=
  match st.phase, st.results with
  | .idle, r :: _ =>
    match r.status with
    | .skipped _ => if o = .ok then [r] else []
    | _ => []
  | .committing, r :: _ => if (perform o db StoreDb.commit).2 then [r] else []
  | _, _ => []

def SingleRun.step (splitter : Splitter) (order : IterationOrder) (s : SingleRun)
    (a : SingleStep) : Option SingleRun :=
  (s.store.op splitter order a.outcome a.isCancelled s.db).map fun (db, st) =>
    ⟨db, st, s.returned ++ s.store.returning a.outcome s.db, s.isCancelled || a.isCancelled⟩

def SingleRun.start (db : IndexDb) (results : List ParsedFileResult) : SingleRun where
  db := ⟨db, none⟩
  store := ⟨.idle, results, []⟩
  returned := []
  isCancelled := false

/-- What commits returns, and a `ROLLBACK` takes effect. That of the first handler returns, unless
the coroutine is cancelled there. -/
def SingleStep.isFaithful (a : SingleStep) (st : Store) : Bool :=
  match st.phase, st.results with
  | .idle, r :: _ =>
    match r.status with
    | .skipped _ => a.outcome ≠ .failedAfter
    | _ => true
  | .committing, _ => a.outcome ≠ .failedAfter
  | .failed, _ => a.outcome = .ok || (a.outcome = .failedAfter && a.isCancelled)
  | .cancelled, _ => a.outcome ≠ .failed
  | _, _ => true

def Faithful (s : SingleRun) (a : SingleStep) : Prop := a.isFaithful s.store = true

instance (s : SingleRun) (a : SingleStep) : Decidable (Faithful s a) :=
  inferInstanceAs (Decidable (_ = _))

/-- A store that did not return left nothing behind : no row of any table, no open transaction, no
file it keeps from being stored, no operation that raises because of it. -/
structure Atomic (splitter : Splitter) (order : IterationOrder) (db : IndexDb)
    (results : List ParsedFileResult) (s : SingleRun) : Prop where
  committed : s.db.committed = replay splitter order db s.returned
  closed : s.store.phase.inside = false → s.db.transaction = none
  continues : s.store.phase = .stopped → s.isCancelled = true
  processed : ∃ processed, results = processed ++ s.store.results ∧
    s.returned.Sublist processed
  succeeds : ∀ isCancelled db' st',
    s.store.op splitter order .ok isCancelled s.db = some (db', st') →
      st'.phase ≠ .failed ∧ st'.phase ≠ .cancelled

/-! ## What the operations keep -/

/-- What holds while commits and rollbacks are faithful. -/
structure SingleInv (splitter : Splitter) (order : IterationOrder) (db : IndexDb)
    (results : List ParsedFileResult) (s : SingleRun) : Prop where
  committed : s.db.committed = replay splitter order db s.returned
  closed : s.store.phase.inside = false → s.db.transaction = none
  finishing : s.store.Finishing splitter order s.db
  cancelled : s.store.phase = .cancelled ∨ s.store.phase = .stopped → s.isCancelled = true
  processed : ∃ processed, results = processed ++ s.store.results ∧
    s.returned.Sublist processed

theorem ne_of_active {phase : StorePhase} (h : phase.active = true) :
    phase ≠ .failed ∧ phase ≠ .cancelled ∧ phase ≠ .stopped := by
  refine ⟨?_, ?_, ?_⟩
  · rintro rfl
    cases h
  · rintro rfl
    cases h
  · rintro rfl
    cases h

theorem handler_inside (isCancelled : Bool) : (handler isCancelled).inside = true := by
  cases isCancelled <;> rfl

theorem handler_cancelled {isCancelled : Bool}
    (h : handler isCancelled = .cancelled ∨ handler isCancelled = .stopped) :
    isCancelled = true := by
  cases isCancelled with
  | true => rfl
  | false => rcases h with h | h <;> cases h

section Step

variable {splitter : Splitter} {order : IterationOrder} {db : IndexDb}
variable {results : List ParsedFileResult} {sdb db' : StoreDb} {phase phase' : StorePhase}
variable {r : ParsedFileResult} {rest stored stored' returned more : List ParsedFileResult}
variable {c c' isCancelled : Bool} {a : SingleStep} {st' : Store}

/-- An operation of a transaction, or its `BEGIN`. -/
theorem SingleInv.continues
    (h : SingleInv splitter order db results ⟨sdb, ⟨phase, r :: rest, stored⟩, returned, c⟩)
    (hc : Store.Continues splitter order isCancelled sdb db' ⟨phase, r :: rest, stored⟩ st') :
    SingleInv splitter order db results ⟨db', st', returned, c || isCancelled⟩ where
  committed := hc.committed.trans h.committed
  closed := fun hout => by
    have hin : st'.phase.inside = true := by
      rcases hc.phase with hact | hraised
      · exact inside_of_active hact
      · rw [hraised]
        exact handler_inside isCancelled
    rw [hin] at hout
    cases hout
  finishing := hc.finishing
  cancelled := fun hp => by
    have hp : st'.phase = .cancelled ∨ st'.phase = .stopped := hp
    rcases hc.phase with hact | hraised
    · exact absurd hp (not_or.2 (ne_of_active hact).2)
    · rw [hraised] at hp
      show (c || isCancelled) = true
      rw [handler_cancelled hp, Bool.or_true]
  processed := hc.results ▸ h.processed

/-- The last operation of a file. -/
theorem SingleInv.next
    (h : SingleInv splitter order db results ⟨sdb, ⟨phase, r :: rest, stored⟩, returned, c⟩)
    (hmore : more.Sublist [r])
    (hcommitted : db'.committed = replay splitter order db (returned ++ more))
    (hclosed : db'.transaction = none)
    (hphase : phase' = .idle ∨ phase' = .stopped ∧ c' = true) :
    SingleInv splitter order db results
      ⟨db', ⟨phase', rest, stored'⟩, returned ++ more, c'⟩ where
  committed := hcommitted
  closed := fun _ => hclosed
  finishing := by
    refine finishing_of_not_active ?_
    rcases hphase with rfl | ⟨rfl, -⟩ <;> rfl
  cancelled := by
    rcases hphase with rfl | ⟨rfl, hc⟩
    · rintro (hp | hp) <;> cases hp
    · exact fun _ => hc
  processed := by
    obtain ⟨processed, hres, hsub⟩ := h.processed
    exact ⟨processed ++ [r], by rw [hres]; simp, hsub.append hmore⟩

/-- A file whose store did not return. -/
theorem SingleInv.leaves
    (h : SingleInv splitter order db results ⟨sdb, ⟨phase, r :: rest, stored⟩, returned, c⟩)
    (hcommitted : db'.committed = sdb.committed) (hclosed : db'.transaction = none)
    (hphase : phase' = .idle ∨ phase' = .stopped ∧ c' = true) :
    SingleInv splitter order db results ⟨db', ⟨phase', rest, stored'⟩, returned, c'⟩ := by
  have hsame : db'.committed = replay splitter order db (returned ++ []) := by
    rw [List.append_nil]
    exact hcommitted.trans h.committed
  rw [← List.append_nil returned]
  exact h.next (List.nil_sublist _) hsame hclosed hphase

/-- `COMMIT`, which returns if it takes effect. -/
theorem SingleInv.commit
    (h : SingleInv splitter order db results
      ⟨sdb, ⟨.committing, r :: rest, stored⟩, returned, c⟩)
    (hok : a.outcome ≠ .failedAfter)
    (hop : (⟨.committing, r :: rest, stored⟩ : Store).op splitter order a.outcome a.isCancelled
      sdb = some (db', st')) :
    SingleInv splitter order db results ⟨db', st', returned ++
      (⟨.committing, r :: rest, stored⟩ : Store).returning a.outcome sdb, c || a.isCancelled⟩ := by
  obtain ⟨r', rest', tables, hres, hs, htr, hfinish⟩ := h.finishing rfl
  obtain ⟨rfl, rfl⟩ := List.cons.inj hres
  have htr : sdb.transaction = some tables := htr
  have hcommit : sdb.commit = some ⟨tables, none⟩ := by simp [StoreDb.commit, htr]
  cases ho : a.outcome with
  | failedAfter => exact absurd ho hok
  | failed =>
    simp only [Store.op, perform, ho, hcommit] at hop
    obtain ⟨rfl, rfl⟩ := Prod.mk.inj (Option.some.inj hop)
    have hreturning : (⟨.committing, r :: rest, stored⟩ : Store).returning .failed sdb = [] := by
      simp [Store.returning, perform]
    rw [hreturning, List.append_nil]
    exact h.continues (continues_handler rfl)
  | ok =>
    simp only [Store.op, perform, ho, hcommit] at hop
    obtain ⟨rfl, rfl⟩ := Prod.mk.inj (Option.some.inj hop)
    have hreturning : (⟨.committing, r :: rest, stored⟩ : Store).returning .ok sdb = [r] := by
      simp [Store.returning, perform, hcommit]
    rw [hreturning]
    refine h.next (List.Sublist.refl _) ?_ rfl (.inl rfl)
    rw [replay_append, hs, ← h.committed]
    exact hfinish

/-- A skipped file has one operation, which commits by itself. -/
theorem SingleInv.skip
    (h : SingleInv splitter order db results ⟨sdb, ⟨.idle, r :: rest, stored⟩, returned, c⟩)
    {reason : String} (hs : r.status = .skipped reason) (hok : a.outcome ≠ .failedAfter)
    (hop : (⟨.idle, r :: rest, stored⟩ : Store).op splitter order a.outcome a.isCancelled
      sdb = some (db', st')) :
    SingleInv splitter order db results ⟨db', st', returned ++
      (⟨.idle, r :: rest, stored⟩ : Store).returning a.outcome sdb, c || a.isCancelled⟩ := by
  have htr : sdb.transaction = none := h.closed rfl
  cases ho : a.outcome with
  | failedAfter => exact absurd ho hok
  | failed =>
    simp only [Store.op, hs, perform, ho] at hop
    obtain ⟨rfl, rfl⟩ := Prod.mk.inj (Option.some.inj hop)
    have hreturning : (⟨.idle, r :: rest, stored⟩ : Store).returning .failed sdb = [] := by
      simp [Store.returning, hs]
    rw [hreturning, List.append_nil]
    refine h.leaves rfl htr ?_
    cases hc : a.isCancelled with
    | true => exact .inr ⟨rfl, Bool.or_true c⟩
    | false => exact .inl rfl
  | ok =>
    simp only [Store.op, hs, perform, ho] at hop
    obtain ⟨rfl, rfl⟩ := Prod.mk.inj (Option.some.inj hop)
    have hreturning : (⟨.idle, r :: rest, stored⟩ : Store).returning .ok sdb = [r] := by
      simp [Store.returning, hs]
    rw [hreturning]
    refine h.next (List.Sublist.refl _) ?_ (by simp [StoreDb.write, htr]) (.inl rfl)
    rw [replay_append, hs, ← h.committed]
    simp [StoreDb.write, StoreDb.view, htr]

/-- The `ROLLBACK` of the handler that goes on with the next file. -/
theorem SingleInv.failed
    (h : SingleInv splitter order db results ⟨sdb, ⟨.failed, r :: rest, stored⟩, returned, c⟩)
    (hok : a.outcome = .ok ∨ a.outcome = .failedAfter ∧ a.isCancelled = true)
    (hop : (⟨.failed, r :: rest, stored⟩ : Store).op splitter order a.outcome a.isCancelled sdb =
      some (db', st')) :
    SingleInv splitter order db results ⟨db', st', returned, c || a.isCancelled⟩ := by
  rcases hok with ho | ⟨ho, hc⟩
  · simp only [Store.op, perform, ho] at hop
    obtain ⟨rfl, rfl⟩ := Prod.mk.inj (Option.some.inj hop)
    exact h.leaves rfl rfl (.inl rfl)
  · simp only [Store.op, perform, ho] at hop
    obtain ⟨rfl, rfl⟩ := Prod.mk.inj (Option.some.inj hop)
    exact h.leaves rfl rfl (.inr ⟨rfl, by rw [hc, Bool.or_true]⟩)

/-- The `ROLLBACK` of the handler that ends the coroutine. -/
theorem SingleInv.rollsBack
    (h : SingleInv splitter order db results ⟨sdb, ⟨.cancelled, r :: rest, stored⟩, returned, c⟩)
    (hok : a.outcome ≠ .failed)
    (hop : (⟨.cancelled, r :: rest, stored⟩ : Store).op splitter order a.outcome a.isCancelled
      sdb = some (db', st')) :
    SingleInv splitter order db results ⟨db', st', returned, c || a.isCancelled⟩ := by
  have hc : c = true := h.cancelled (.inl rfl)
  have hstops : StorePhase.stopped = .idle ∨
      StorePhase.stopped = .stopped ∧ (c || a.isCancelled) = true :=
    .inr ⟨rfl, by rw [hc, Bool.true_or]⟩
  cases ho : a.outcome with
  | failed => exact absurd ho hok
  | ok =>
    simp only [Store.op, perform, ho] at hop
    obtain ⟨rfl, rfl⟩ := Prod.mk.inj (Option.some.inj hop)
    exact h.leaves rfl rfl hstops
  | failedAfter =>
    simp only [Store.op, perform, ho] at hop
    obtain ⟨rfl, rfl⟩ := Prod.mk.inj (Option.some.inj hop)
    exact h.leaves rfl rfl hstops

/-- What one operation keeps. -/
theorem SingleInv.step {s s' : SingleRun} (h : SingleInv splitter order db results s)
    (hok : Faithful s a) (hs : s.step splitter order a = some s') :
    SingleInv splitter order db results s' := by
  obtain ⟨⟨db', st'⟩, hop, rfl⟩ := Option.map_eq_some_iff.1 hs
  obtain ⟨sdb, ⟨phase, rs, stored⟩, returned, c⟩ := s
  simp only at hop ⊢
  cases rs with
  | nil => cases phase <;> cases hop
  | cons r rest =>
    cases phase with
    | idle =>
      cases hstatus : r.status with
      | success =>
        have hreturning : (⟨.idle, r :: rest, stored⟩ : Store).returning a.outcome sdb = [] := by
          simp [Store.returning, hstatus]
        rw [hreturning, List.append_nil]
        exact h.continues (begin_continues hstatus hop)
      | skipped reason =>
        refine h.skip hstatus ?_ hop
        simpa [Faithful, SingleStep.isFaithful, hstatus] using hok
      | error message =>
        simp only [Store.op, hstatus] at hop
        obtain ⟨rfl, rfl⟩ := Prod.mk.inj (Option.some.inj hop)
        have hreturning : (⟨.idle, r :: rest, stored⟩ : Store).returning a.outcome sdb = [] := by
          simp [Store.returning, hstatus]
        rw [hreturning, List.append_nil]
        exact h.leaves rfl (h.closed rfl) (.inl rfl)
    | begun =>
      refine (List.append_nil returned).symm ▸ ?_
      exact h.continues (statement_continues rfl (by simp) h.finishing hop)
    | looked _ =>
      refine (List.append_nil returned).symm ▸ ?_
      exact h.continues (statement_continues rfl (by simp) h.finishing hop)
    | recorded _ =>
      refine (List.append_nil returned).symm ▸ ?_
      exact h.continues (statement_continues rfl (by simp) h.finishing hop)
    | deleting _ _ =>
      refine (List.append_nil returned).symm ▸ ?_
      exact h.continues (statement_continues rfl (by simp) h.finishing hop)
    | inserting _ =>
      refine (List.append_nil returned).symm ▸ ?_
      exact h.continues (statement_continues rfl (by simp) h.finishing hop)
    | committing =>
      refine h.commit ?_ hop
      simpa [Faithful, SingleStep.isFaithful] using hok
    | failed =>
      refine (List.append_nil returned).symm ▸ h.failed ?_ hop
      simpa [Faithful, SingleStep.isFaithful] using hok
    | cancelled =>
      refine (List.append_nil returned).symm ▸ h.rollsBack ?_ hop
      simpa [Faithful, SingleStep.isFaithful] using hok
    | stopped => cases hop

/-- An operation that is let return does. -/
theorem SingleInv.succeeds {s : SingleRun} (h : SingleInv splitter order db results s)
    {isCancelled : Bool}
    (hop : s.store.op splitter order .ok isCancelled s.db = some (db', st')) :
    st'.phase ≠ .failed ∧ st'.phase ≠ .cancelled := by
  obtain ⟨sdb, ⟨phase, rs, stored⟩, returned, c⟩ := s
  simp only at hop
  have hstatement : ∀ {r rest}, rs = r :: rest → phase.active = true → phase ≠ .committing →
      st'.phase ≠ .failed ∧ st'.phase ≠ .cancelled := by
    rintro r rest rfl hact hne
    rw [op_statement hact hne] at hop
    obtain ⟨rfl, rfl⟩ := Prod.mk.inj (Option.some.inj hop)
    have hact' : (Stores.statement splitter order r sdb.view phase).2.active = true :=
      statement_active hact
    exact ⟨(ne_of_active hact').1, (ne_of_active hact').2.1⟩
  cases rs with
  | nil => cases phase <;> cases hop
  | cons r rest =>
    cases phase with
    | idle =>
      have htr : sdb.transaction = none := h.closed rfl
      cases hstatus : r.status with
      | success =>
        simp only [Store.op, hstatus, perform, StoreDb.begin_, htr] at hop
        obtain ⟨rfl, rfl⟩ := Prod.mk.inj (Option.some.inj hop)
        simp
      | skipped reason =>
        simp only [Store.op, hstatus, perform] at hop
        obtain ⟨rfl, rfl⟩ := Prod.mk.inj (Option.some.inj hop)
        simp
      | error message =>
        simp only [Store.op, hstatus] at hop
        obtain ⟨rfl, rfl⟩ := Prod.mk.inj (Option.some.inj hop)
        simp
    | begun => exact hstatement rfl rfl (by simp)
    | looked _ => exact hstatement rfl rfl (by simp)
    | recorded _ => exact hstatement rfl rfl (by simp)
    | deleting _ _ => exact hstatement rfl rfl (by simp)
    | inserting _ => exact hstatement rfl rfl (by simp)
    | committing =>
      obtain ⟨r', rest', tables, -, -, htr, -⟩ := h.finishing rfl
      have htr : sdb.transaction = some tables := htr
      simp only [Store.op, perform, StoreDb.commit, htr, Option.map_some] at hop
      obtain ⟨rfl, rfl⟩ := Prod.mk.inj (Option.some.inj hop)
      simp
    | failed =>
      simp only [Store.op, perform] at hop
      obtain ⟨rfl, rfl⟩ := Prod.mk.inj (Option.some.inj hop)
      simp
    | cancelled =>
      simp only [Store.op, perform] at hop
      obtain ⟨rfl, rfl⟩ := Prod.mk.inj (Option.some.inj hop)
      simp
    | stopped => cases hop

end Step

/-! ## Atomicity -/

section Runs

variable {splitter : Splitter} {order : IterationOrder} {db : IndexDb}
variable {results : List ParsedFileResult} {s : SingleRun}

theorem singleInv_start (splitter : Splitter) (order : IterationOrder) (db : IndexDb)
    (results : List ParsedFileResult) :
    SingleInv splitter order db results (SingleRun.start db results) where
  committed := rfl
  closed := fun _ => rfl
  finishing := finishing_of_not_active rfl
  cancelled := by rintro (hp | hp) <;> cases hp
  processed := ⟨[], rfl, List.Sublist.refl _⟩

theorem SingleInv.atomic (h : SingleInv splitter order db results s) :
    Atomic splitter order db results s where
  committed := h.committed
  closed := h.closed
  continues := fun hp => h.cancelled (.inr hp)
  processed := h.processed
  succeeds := fun _ _ _ hop => h.succeeds hop

/-- Whatever raises or is cancelled, however often. -/
theorem atomic_of_faithful (splitter : Splitter) (order : IterationOrder) (db : IndexDb)
    (results : List ParsedFileResult) {s : SingleRun}
    (h : ReachWhen (SingleRun.step splitter order) Faithful (SingleRun.start db results) s) :
    Atomic splitter order db results s := by
  have hinv : SingleInv splitter order db results s := by
    refine h.invariant (I := SingleInv splitter order db results)
      (singleInv_start splitter order db results) ?_
    exact fun s a s' hinv hok hs => hinv.step hok hs
  exact hinv.atomic

end Runs

/-! ## A chunk insertion that raises -/

/-- `a.py`, changed, then `b.py`. -/
def changedThenNew : List ParsedFileResult := twoFiles true ++ twoFiles false

/-- The insertion for `a.py` raises after it took effect, and `b.py` is stored. -/
def insertionRaises : List SingleStep :=
  List.replicate 5 ⟨.ok, false⟩ ++ [⟨.failedAfter, false⟩] ++ List.replicate 6 ⟨.ok, false⟩

theorem atomic_insertionRaises : ∃ s,
    execute (guarded (SingleRun.step charSplitter insertionOrder) Faithful)
      (SingleRun.start indexedOnce changedThenNew) insertionRaises = some s ∧
    s.returned.map (·.path) = ["b.py"] ∧ s.store.results.length = 0 ∧
      Atomic charSplitter insertionOrder indexedOnce changedThenNew s := by
  have hsome : ((execute (guarded (SingleRun.step charSplitter insertionOrder) Faithful)
      (SingleRun.start indexedOnce changedThenNew) insertionRaises).any fun s =>
        decide (s.returned.map (·.path) = ["b.py"] ∧ s.store.results.length = 0)) = true := by
    decide +kernel
  obtain ⟨s, hs, hend⟩ := (Option.any_eq_true _ _).1 hsome
  obtain ⟨hreturned, hresults⟩ := of_decide_eq_true hend
  exact ⟨s, hs, hreturned, hresults, atomic_of_faithful charSplitter insertionOrder indexedOnce
    changedThenNew (.of_guarded (.of_execute _ hs))⟩

/-! ## A commit that is cancelled -/

/-- Cancelled while it awaits the `COMMIT`, which the executor goes on with. The `ROLLBACK` is
then skipped. -/
def commitCancelled : List SingleStep :=
  List.replicate 6 ⟨.ok, false⟩ ++ [⟨.failedAfter, true⟩, ⟨.ok, false⟩]

/-- The chunk of `a.py` is replaced by a store that did not return. -/
theorem cancelled_commit : ∃ s,
    Reach (SingleRun.step charSplitter insertionOrder) (SingleRun.start indexedOnce changedThenNew)
      s ∧ s.store.phase = .stopped ∧ s.returned.length = 0 ∧
        s.db.committed.fileChunks "a.py" ≠ indexedOnce.fileChunks "a.py" ∧
          ¬Atomic charSplitter insertionOrder indexedOnce changedThenNew s := by
  have hsome : ((execute (SingleRun.step charSplitter insertionOrder)
      (SingleRun.start indexedOnce changedThenNew) commitCancelled).any fun s =>
        decide (s.store.phase = .stopped ∧ s.returned.length = 0 ∧
          s.db.committed.fileChunks "a.py" ≠ indexedOnce.fileChunks "a.py")) = true := by
    decide +kernel
  obtain ⟨s, hs, hend⟩ := (Option.any_eq_true _ _).1 hsome
  obtain ⟨hstopped, hreturned, hrows⟩ := of_decide_eq_true hend
  refine ⟨s, .of_execute _ hs, hstopped, hreturned, hrows, fun hatomic => hrows ?_⟩
  rw [hatomic.committed, List.length_eq_zero_iff.1 hreturned]
  rfl

end ChunkHound.Stores
