import ChunkHound.CompactionSafety

/-!
# An intent that is cut while it is written

`write_intent` truncates the intent file, writes it and syncs it. Cut between the truncation and
the last byte, it leaves a file that `recover_swap_intent` does not recognize, and every open
after it fails, with the data complete at the live path or at `.old`. Cut anywhere else, a
compaction leaves a disk that recovery brings back (`compaction_recovers_iff`).
-/

namespace ChunkHound

open CrashHoare StepSystem

/-! ## One intent -/

/-- The pieces before the last : all run, or the run is cut with the intent as it was or torn. -/
theorem forM_putIntent : ∀ (texts : List String) (d : Disk) (os : List Outcome),
    (∃ os' i, (texts.forM fun text => putIntent (.other text)) d os =
        .done () { d with intent := i } os' ∧ effects os = texts.length + effects os' ∧
        (texts ≠ [] → ∃ text, i = some (.other text))) ∨
      (((texts.forM fun text => putIntent (.other text)) d os).isDone = false ∧
        effects os ≤ texts.length ∧
        (effects os = 0 → ((texts.forM fun text => putIntent (.other text)) d os).state = d) ∧
        (0 < effects os → ∃ text, ((texts.forM fun text => putIntent (.other text)) d os).state =
          { d with intent := some (.other text) }))
  | [], d, os => Or.inl ⟨os, d.intent, rfl, (Nat.zero_add _).symm, fun h => absurd rfl h⟩
  | text :: texts, d, [] => Or.inr ⟨rfl, Nat.zero_le _, fun _ => rfl, nofun⟩
  | text :: texts, d, .failed :: os =>
    Or.inr ⟨rfl, Nat.zero_le _, fun _ => rfl, nofun⟩
  | text :: texts, d, .failedAfter :: os =>
    Or.inr ⟨rfl, Nat.succ_le_succ (Nat.zero_le _), (nomatch ·), fun _ => ⟨text, rfl⟩⟩
  | text :: texts, d, .ok :: os => by
    have hcons : ((text :: texts).forM fun text => putIntent (.other text)) d (.ok :: os) =
        (texts.forM fun text => putIntent (.other text))
          { d with intent := some (.other text) } os := rfl
    have heffects : effects (.ok :: os) = effects os + 1 := rfl
    rw [hcons, heffects, List.length_cons]
    rcases forM_putIntent texts { d with intent := some (.other text) } os with
      ⟨os', i, hrun, hcount, hlast⟩ | ⟨hdone, hle, hzero, hpos⟩
    · refine Or.inl ⟨os', i, hrun, by omega, fun _ => ?_⟩
      by_cases hnil : texts = []
      · subst hnil
        obtain ⟨-, hstate, -⟩ := Result.done.inj hrun
        exact ⟨text, (congrArg Disk.intent hstate).symm⟩
      · exact hlast hnil
    · refine Or.inr ⟨hdone, by omega, (nomatch ·), fun _ => ?_⟩
      by_cases h0 : effects os = 0
      · exact ⟨text, hzero h0⟩
      · exact hpos (by omega)

variable {phase : SwapIntent}

/-- The intents of a compaction have a text. -/
theorem tornTexts_ne_nil (h : phase.text ≠ "") : tornTexts phase ≠ [] := by
  have hlen : (tornTexts phase).length = phase.text.toList.length := by
    simp [tornTexts, List.length_inits]
  intro hnil
  rw [hnil] at hlen
  refine h (String.toList_eq_nil_iff.1 (List.length_eq_zero_iff.1 hlen.symm))

/-- The interruption tears the intent : the truncation takes effect, and the last piece does
not. -/
def Tears (phase : SwapIntent) (os : List Outcome) : Prop :=
  0 < effects os ∧ effects os ≤ (tornTexts phase).length

/-- Writing an intent leaves the old one, a torn one, or the new one. -/
theorem writeIntent_run (h : phase.text ≠ "") (d : Disk) (os : List Outcome) :
    (effects os = 0 ∧ (writeIntent phase d os).isDone = false ∧
        (writeIntent phase d os).state = d) ∨
      (Tears phase os ∧ (writeIntent phase d os).isDone = false ∧
        ∃ text, (writeIntent phase d os).state = { d with intent := some (.other text) }) ∨
      ((tornTexts phase).length < effects os ∧
        (writeIntent phase d os).state = { d with intent := some phase }) := by
  unfold writeIntent
  rcases forM_putIntent (tornTexts phase) d os with
    ⟨os', i, hrun, hcount, hlast⟩ | ⟨hdone, hle, hzero, hpos⟩
  · rw [Prog.bind_done _ hrun]
    obtain ⟨text, rfl⟩ := hlast (tornTexts_ne_nil h)
    have hn := List.length_pos_iff.2 (tornTexts_ne_nil h)
    match os' with
    | [] => exact Or.inr (Or.inl ⟨⟨by omega, by simp [effects] at hcount; omega⟩, rfl, text, rfl⟩)
    | .failed :: os'' =>
      exact Or.inr (Or.inl ⟨⟨by omega, by simp [effects] at hcount; omega⟩, rfl, text, rfl⟩)
    | .failedAfter :: os'' =>
      have h1 : effects (.failedAfter :: os'') = 1 := rfl
      exact Or.inr (Or.inr ⟨by omega, rfl⟩)
    | .ok :: os'' =>
      have h1 : effects (.ok :: os'') = effects os'' + 1 := rfl
      refine Or.inr (Or.inr ⟨by omega, ?_⟩)
      match os'' with
      | [] => rfl
      | .failed :: _ => rfl
      | .failedAfter :: _ => rfl
      | .ok :: _ => rfl
  · rw [Prog.isDone_bind _ hdone, Prog.state_bind _ hdone]
    by_cases h0 : effects os = 0
    · exact Or.inl ⟨h0, rfl, hzero h0⟩
    · exact Or.inr (Or.inl ⟨⟨by omega, hle⟩, rfl, hpos (by omega)⟩)

/-- A write that is not torn leaves a safe disk wherever it is cut. -/
theorem writeIntent_whole {data : Contents} (hphase : phase.text ≠ "")
    {P Q : Disk → Prop} (hP : ∀ d, P d → Safe data d)
    (hput : ∀ d, P d → Q { d with intent := some phase }) (hQ : ∀ d, Q d → Safe data d)
    {d : Disk} (hd : P d) {os : List Outcome} (h : ¬Tears phase os) :
    (writeIntent phase d os).Meets (fun _ => Q) (Safe data) := by
  rcases writeIntent_run hphase d os with ⟨-, hdone, hstate⟩ | ⟨htears, -⟩ | ⟨-, hstate⟩
  · refine Result.meets_of_not_done hdone ?_
    rw [hstate]
    exact hP d hd
  · exact absurd htears h
  · have hq : Q (writeIntent phase d os).state := by
      rw [hstate]
      exact hput d hd
    exact Result.meets_of_state hq (hQ _ hq)

/-! ## The three intents of a compaction -/

def beforePreSwap : SwapM Unit := do
  checkpoint
  removeLeftovers

def beforePhase1 : SwapM Unit := do
  beforePreSwap
  writeIntent .preSwap
  renameDbWithWal .live .old

def beforePhase2 : SwapM Unit := do
  beforePhase1
  writeIntent .phase1
  buildCompact

/-- What a compaction does once its last intent is written. -/
def finishSwap : SwapM Unit := do
  renameDbWithWal .compact .live
  Prog.attempt removeIntent
  removeDbFileBestEffort .old
  reopen

theorem runAttachCopyCompaction_eq :
    runAttachCopyCompaction = (do
      beforePhase2
      writeIntent .phase2
      finishSwap) := by
  simp only [runAttachCopyCompaction, beforePhase2, beforePhase1, beforePreSwap, finishSwap,
    Prog.bind_assoc]

/-- The compaction up to each intent, and the intent. -/
def intentWrites : List (SwapM Unit × SwapIntent) :=
  [(beforePreSwap, .preSwap), (beforePhase1, .phase1), (beforePhase2, .phase2)]

/-- The interruption falls between the truncation of the intent file and the last byte written
to it, for one of the three intents. -/
def CutInIntent (d : Disk) (os : List Outcome) : Prop :=
  ∃ w ∈ intentWrites, ∃ d' os', w.1 d os = .done () d' os' ∧ Tears w.2 os'

section Compaction

variable {data : Contents}

theorem beforePreSwap_settled :
    Triple (Settled data) beforePreSwap (fun _ => Settled data) (Safe data) :=
  Triple.seq checkpoint_settled removeLeftovers_settled

/-- The data is aside, and one fixed content. -/
def AsideIn (data : Contents) (intent : SwapIntent) (d : Disk) : Prop :=
  ∃ src : DbImage, (d.intent = some intent ∧ d.live = none ∧ d.old = some (.image src) ∧
    Startable d.compact) ∧ src.WF ∧ src.tables = data

/-- The copy is built, and the data is still at `.old`. -/
def BuiltIn (data : Contents) (d : Disk) : Prop :=
  ∃ src : DbImage, (d.intent = some .phase1 ∧ d.live = none ∧ d.old = some (.image src) ∧
    IsCopy src.tables d.compact) ∧ src.WF ∧ src.tables = data

variable {d : Disk}

theorem AsideIn.safe (h : AsideIn data .phase1 d) : Safe data d := by
  obtain ⟨src, ⟨hi, hl, ho, hc⟩, hsrc, hdata⟩ := h
  exact Aside.safe ⟨Or.inr hi, hl, ⟨src, ho, hsrc, hdata⟩, hc⟩

theorem BuiltIn.safe (h : BuiltIn data d) : Safe data d := by
  obtain ⟨src, ⟨hi, hl, ho, hc⟩, hsrc, hdata⟩ := h
  exact Aside.safe ⟨Or.inr hi, hl, ⟨src, ho, hsrc, hdata⟩, hc.startable⟩

theorem buildCompact_built :
    Triple (AsideIn data .phase1) buildCompact (fun _ => BuiltIn data) (Safe data) := by
  refine Triple.exists_pre fun src => Triple.and_pre ?_
  rintro ⟨hsrc, rfl⟩
  exact (buildCompact_building hsrc).conseq (fun _ h => h) fun _ d h => ⟨src, h, hsrc, rfl⟩

variable {os : List Outcome}

/-- The three parts of a compaction, when no intent is torn. -/
theorem beforePhase1_aside (hd : Settled data d)
    (h : ¬CutInIntent d os) : (beforePhase1 d os).Meets (fun _ => Aside data) (Safe data) := by
  refine Prog.meets_bind (beforePreSwap_settled d hd os) fun _ d' os' hrun hd' => ?_
  have hwhole : ¬Tears .preSwap os' := fun ht =>
    h ⟨(beforePreSwap, .preSwap), by simp [intentWrites], d', os', hrun, ht⟩
  refine Prog.meets_bind (Q := fun _ d => Settled data d ∧ d.intent = some .preSwap) ?_
    fun _ d'' os'' _ hd'' => renameLiveOld_aside d'' hd'' os''
  exact writeIntent_whole (by decide) (fun _ h => h.safe)
    (fun _ h => ⟨⟨h.live, h.startable, by simp, by simp⟩, rfl⟩) (fun _ h => h.1.safe) hd' hwhole

theorem beforePhase2_built (hd : Settled data d)
    (h : ¬CutInIntent d os) : (beforePhase2 d os).Meets (fun _ => BuiltIn data) (Safe data) := by
  refine Prog.meets_bind (beforePhase1_aside hd h) fun _ d' os' hrun hd' => ?_
  have hwhole : ¬Tears .phase1 os' := fun ht =>
    h ⟨(beforePhase1, .phase1), by simp [intentWrites], d', os', hrun, ht⟩
  refine Prog.meets_bind (Q := fun _ => AsideIn data .phase1) ?_
    fun _ d'' os'' _ hd'' => buildCompact_built d'' hd'' os''
  refine writeIntent_whole (by decide) (fun _ h => h.safe) ?_ (fun _ h => h.safe) hd' hwhole
  intro d h
  obtain ⟨src, hold, hsrc, hdata⟩ := h.old
  exact ⟨src, ⟨rfl, h.live, hold, h.startable⟩, hsrc, hdata⟩

/-- A compaction that tears no intent leaves a safe disk. -/
theorem compaction_safe (hd : Settled data d)
    (h : ¬CutInIntent d os) : Safe data (runAttachCopyCompaction d os).state := by
  have hfinish : Triple (Unswapped data) finishSwap (fun _ => Settled data) (Safe data) :=
    Triple.seq renameCompactLive_unswapped (Triple.seq removeIntent_settled
      (Triple.seq removeOld_settled reopen_settled))
  have hmeets : (runAttachCopyCompaction d os).Meets (fun _ => Settled data) (Safe data) := by
    rw [runAttachCopyCompaction_eq]
    refine Prog.meets_bind (beforePhase2_built hd h) fun _ d' os' hrun hd' => ?_
    have hwhole : ¬Tears .phase2 os' := fun ht =>
      h ⟨(beforePhase2, .phase2), by simp [intentWrites], d', os', hrun, ht⟩
    refine Prog.meets_bind (Q := fun _ => Unswapped data) ?_
      fun _ d'' os'' _ hd'' => hfinish d'' hd'' os''
    refine writeIntent_whole (by decide) (fun _ h => h.safe) ?_ (fun _ h => h.safe) hd' hwhole
    rintro d ⟨src, ⟨-, hl, -, hc⟩, -, rfl⟩
    exact ⟨rfl, hl, hc⟩
  exact (hmeets.mono fun _ _ hs => hs.safe).state

/-- A torn write cuts the compaction, with the data where it was. -/
theorem torn_of_tears {phase : SwapIntent} (hphase : phase.text ≠ "") {p : SwapM Unit}
    (rest : SwapM Unit) {d d' : Disk} {os os' : List Outcome}
    (hrun : p d os = .done () d' os') (ht : Tears phase os')
    (hcopy : IsCopy data d'.live ∨ d'.live = none ∧ IsCopy data d'.old) :
    Torn data ((p >>= fun _ => writeIntent phase >>= fun _ => rest) d os).state := by
  rw [Prog.bind_done _ hrun]
  rcases writeIntent_run hphase d' os' with ⟨h0, -, -⟩ | ⟨-, hdone, text, hstate⟩ | ⟨hlt, -⟩
  · have hpos := ht.1
    omega
  · rw [Prog.state_bind _ hdone, hstate]
    exact ⟨text, rfl, hcopy⟩
  · have hle := ht.2
    omega

/-- A compaction that tears an intent leaves it torn. -/
theorem compaction_torn (hd : Settled data d)
    (h : CutInIntent d os) : Torn data (runAttachCopyCompaction d os).state := by
  have hheld : ∀ {P : Disk → Prop} {M : Unit → Disk → Prop} {p : SwapM Unit},
      Triple P p M (Safe data) → Triple P p M (Held data) := fun h => h.crash fun _ h => Or.inl h
  have haside : Triple (Settled data) beforePhase1 (fun _ => Aside data) (Held data) :=
    Triple.seq (hheld beforePreSwap_settled)
      (Triple.seq writePreSwap_settled (hheld renameLiveOld_aside))
  have hbuilt : Triple (Settled data) beforePhase2 (fun _ => BuiltIn data) (Held data) :=
    Triple.seq haside (Triple.seq writePhase1_aside (hheld buildCompact_built))
  obtain ⟨w, hw, d', os', hrun, ht⟩ := h
  simp only [intentWrites, List.mem_cons, List.not_mem_nil, or_false] at hw
  rw [runAttachCopyCompaction_eq]
  rcases hw with rfl | rfl | rfl
  · have hlive := (beforePreSwap_settled.of_done hd hrun).live
    have htorn := torn_of_tears (by decide) (do
      renameDbWithWal .live .old
      writeIntent .phase1
      buildCompact
      writeIntent .phase2
      finishSwap) hrun ht (Or.inl hlive)
    simpa only [beforePhase2, beforePhase1, Prog.bind_assoc] using htorn
  · have hold := haside.of_done hd hrun
    have htorn := torn_of_tears (by decide) (do
      buildCompact
      writeIntent .phase2
      finishSwap) hrun ht (Or.inr ⟨hold.live, hold.old⟩)
    simpa only [beforePhase2, Prog.bind_assoc] using htorn
  · obtain ⟨src, ⟨-, hl, ho, -⟩, hsrc, hdata⟩ := hbuilt.of_done hd hrun
    exact torn_of_tears (by decide) finishSwap hrun ht (Or.inr ⟨hl, src, ho, hsrc, hdata⟩)

/-! ## Recovery -/

/-- When nothing fails, recovery returns with the data live. -/
def Recovers (data : Contents) (d : Disk) : Prop :=
  ∃ recovered d' rest,
    recoverSwapIntent d (List.replicate 4 .ok) = .done recovered d' rest ∧ IsCopy data d'.live

theorem Safe.open_returns (h : Safe data d) :
    ∃ d' rest, openDb d (List.replicate 8 .ok) = .done () d' rest := by
  obtain ⟨live, old, compact, intent⟩ := d
  cases intent with
  | none =>
    obtain ⟨img, rfl, -⟩ := h.2
    exact ⟨_, _, rfl⟩
  | some i =>
    cases i with
    | preSwap =>
      rcases h.settled_or_aside (Or.inl rfl) with h | ⟨-, rfl, ⟨img, rfl, -⟩, -⟩
      · obtain ⟨img, rfl, -⟩ := h.live
        cases old <;> cases compact <;> exact ⟨_, _, rfl⟩
      · cases compact <;> exact ⟨_, _, rfl⟩
    | phase1 =>
      rcases h.settled_or_aside (Or.inr rfl) with h | ⟨-, rfl, ⟨img, rfl, -⟩, -⟩
      · obtain ⟨img, rfl, -⟩ := h.live
        cases old <;> cases compact <;> exact ⟨_, _, rfl⟩
      · cases compact <;> exact ⟨_, _, rfl⟩
    | phase2 =>
      rcases h.settled_or_unswapped rfl with h | ⟨-, rfl, img, rfl, -⟩
      · obtain ⟨img, rfl, -⟩ := h.live
        obtain rfl := h.phase2 rfl
        cases old <;> exact ⟨_, _, rfl⟩
      · cases old <;> exact ⟨_, _, rfl⟩
    | other text => exact h.2.elim

theorem Safe.recovers (h : Safe data d) : Recovers data d := by
  obtain ⟨recovered, d', rest, hr⟩ := h.recover_returns
  exact ⟨recovered, d', rest, hr, (recoverSwapIntent_safe.of_done h hr).live⟩

theorem Torn.not_recovers (h : Torn data d) : ¬Recovers data d := by
  rintro ⟨recovered, d', rest, hr, -⟩
  exact (recoverSwapIntent_torn (Q := fun _ _ => False)).of_done h hr

theorem openDb_torn : Triple (Torn data) openDb (fun _ _ => False) (Torn data) :=
  Triple.bind (recoverSwapIntent_torn (Q := fun _ _ => False)) fun _ => Triple.vacuous fun _ h => h

theorem readFileStatesRecovery_torn :
    Triple (Torn data) readFileStatesRecovery (fun _ _ => False) (Torn data) :=
  Triple.bind (recoverSwapIntent_torn (Q := fun _ _ => False)) fun _ => Triple.vacuous fun _ h => h

end Compaction

namespace SwapStore

/-- No run of the store opens the index again. -/
def LockedOut (s : SwapStore) : Prop := ∀ s', Reach SwapStore.step s s' → s'.isOpen = false

variable {data : Contents} {s : SwapStore}

/-- A program that cannot return from a torn disk leaves it torn, without a connection. -/
theorem after_torn {p : SwapM Unit} (hp : Triple (Torn data) p (fun _ _ => False) (Torn data))
    (hs : Torn data s.disk) (connected : Bool) (os : List Outcome) :
    Torn data (s.after connected (p s.disk os)).disk ∧
      (s.after connected (p s.disk os)).isOpen = false := by
  have hm := hp s.disk hs os
  cases hr : p s.disk os with
  | done a d os' =>
    rw [hr] at hm
    exact hm.elim
  | error e d os' =>
    rw [hr] at hm
    exact ⟨hm, rfl⟩
  | killed d =>
    rw [hr] at hm
    exact ⟨hm, rfl⟩

/-- With a torn intent every later open fails. -/
theorem lockedOut_of_torn (hs : Torn data s.disk) (hclosed : s.isOpen = false) : LockedOut s := by
  intro s' h
  refine (h.invariant (I := fun t => Torn data t.disk ∧ t.isOpen = false) ⟨hs, hclosed⟩ ?_).2
  rintro t a t' ⟨ht, hto⟩ - hstep
  cases a with
  | write img => simp [SwapStore.step, hto] at hstep
  | exit =>
    obtain rfl := Option.some.inj hstep
    exact ⟨ht, rfl⟩
  | compact os => simp [SwapStore.step, hto] at hstep
  | openDb os =>
    simp only [SwapStore.step, hto, Bool.false_eq_true, if_false] at hstep
    obtain rfl := Option.some.inj hstep
    exact after_torn openDb_torn ht true os
  | readFileStates os =>
    simp only [SwapStore.step, hto, Bool.false_eq_true, if_false] at hstep
    obtain rfl := Option.some.inj hstep
    exact after_torn readFileStatesRecovery_torn ht false os

/-- A safe disk can be opened. -/
theorem not_lockedOut_of_safe (hs : Safe data s.disk) :
    ¬LockedOut s := by
  intro h
  cases hopen : s.isOpen with
  | true =>
    have hclosed := h s .init
    rw [hopen] at hclosed
    cases hclosed
  | false =>
    obtain ⟨d', rest, hr⟩ := hs.open_returns
    have hstep : s.step (.openDb (List.replicate 8 .ok)) = some ⟨d', s.data, true⟩ := by
      simp only [SwapStore.step, hopen, Bool.false_eq_true, if_false]
      rw [hr]
      rfl
    have hclosed := h _ (.step .init trivial hstep)
    cases hclosed

end SwapStore

/-- From any state with an open index, the disk a compaction leaves is recovered, and can be
opened again, if and only if the compaction was not cut while it wrote an intent. -/
theorem compaction_recovers_iff {img : DbImage} (himg : img.WF) {s : SwapStore}
    (h : Reach SwapStore.step (SwapStore.opened img) s) (hopen : s.isOpen = true)
    (os : List Outcome) :
    (Recovers s.data (runAttachCopyCompaction s.disk os).state ∧
      ¬(s.after true (runAttachCopyCompaction s.disk os)).LockedOut) ↔
      ¬CutInIntent s.disk os := by
  have hset : Settled s.data s.disk := (SwapStore.inv_of_reach himg h).2 hopen
  constructor
  · intro hrec hcut
    exact (compaction_torn hset hcut).not_recovers hrec.1
  · intro hwhole
    have hsafe := compaction_safe hset hwhole
    refine ⟨hsafe.recovers, ?_⟩
    have hdisk : Safe s.data (s.after true (runAttachCopyCompaction s.disk os)).disk := by
      rw [SwapStore.after_disk]
      exact hsafe
    exact SwapStore.not_lockedOut_of_safe hdisk

/-- A compaction killed right after it truncated its first intent. -/
def killedAtIntent : List Outcome := List.replicate 4 .ok

/-- The live database is whole, and nothing opens it again. -/
theorem lockedOut_killedAtIntent :
    ¬Recovers DbImage.empty.setupSchema.tables
        (runAttachCopyCompaction (SwapStore.opened DbImage.empty.setupSchema).disk
          killedAtIntent).state ∧
      ((SwapStore.opened DbImage.empty.setupSchema).after true
        (runAttachCopyCompaction (SwapStore.opened DbImage.empty.setupSchema).disk
          killedAtIntent)).LockedOut := by
  have hrun : runAttachCopyCompaction (SwapStore.opened DbImage.empty.setupSchema).disk
      killedAtIntent = .killed
        ⟨some (.image DbImage.empty.setupSchema), none, none, some (.other "")⟩ := by
    cbv
  have htorn : Torn DbImage.empty.setupSchema.tables
      ⟨some (.image DbImage.empty.setupSchema), none, none, some (.other "")⟩ :=
    ⟨"", rfl, Or.inl ⟨_, rfl, DbImage.wf_setupSchema_empty, rfl⟩⟩
  rw [hrun]
  exact ⟨htorn.not_recovers, SwapStore.lockedOut_of_torn htorn rfl⟩

/-- A compaction killed once the live file is moved aside. -/
def killedAside : List Outcome := List.replicate 14 .ok

theorem compaction_recovers_aside :
    Recovers DbImage.empty.setupSchema.tables
        (runAttachCopyCompaction (SwapStore.opened DbImage.empty.setupSchema).disk
          killedAside).state ∧
      ¬((SwapStore.opened DbImage.empty.setupSchema).after true
        (runAttachCopyCompaction (SwapStore.opened DbImage.empty.setupSchema).disk
          killedAside)).LockedOut := by
  have hpreSwap : beforePreSwap (SwapStore.opened DbImage.empty.setupSchema).disk killedAside =
      .done () ⟨some (.image DbImage.empty.setupSchema), none, none, none⟩
        (List.replicate 11 .ok) := by
    cbv
  have hphase1 : beforePhase1 (SwapStore.opened DbImage.empty.setupSchema).disk killedAside =
      .done () ⟨none, some (.image DbImage.empty.setupSchema), none, some .preSwap⟩ [] := by
    cbv
  have hphase2 : (beforePhase2 (SwapStore.opened DbImage.empty.setupSchema).disk
      killedAside).isDone = false := by
    cbv
  refine (compaction_recovers_iff DbImage.wf_setupSchema_empty .init rfl killedAside).2 ?_
  rintro ⟨w, hw, d', os', hrun, hpos, hle⟩
  simp only [intentWrites, List.mem_cons, List.not_mem_nil, or_false] at hw
  rcases hw with rfl | rfl | rfl <;> dsimp only at hrun hle
  · rw [hpreSwap] at hrun
    obtain ⟨-, -, rfl⟩ := Result.done.inj hrun
    have hlen : (tornTexts .preSwap).length = 8 := by decide
    have heffects : effects (List.replicate 11 .ok) = 11 := rfl
    omega
  · rw [hphase1] at hrun
    obtain ⟨-, -, rfl⟩ := Result.done.inj hrun
    exact absurd hpos (Nat.lt_irrefl 0)
  · rw [hrun] at hphase2
    cases hphase2

end ChunkHound
