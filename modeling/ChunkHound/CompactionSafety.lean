import ChunkHound.CompactionCopy
import ChunkHound.CompactionSwap
import Mathlib

/-!
# Compaction never loses the data

`Safe data d` says where a complete copy of the data is for each intent, and `Torn data d` that
an intent was cut while it was written, with the data live or at `.old`. One of the two holds at
every point of a compaction (`runAttachCopyCompaction_held`) and of a recovery
(`recoverSwapIntent_held`), whatever fails and wherever the process is killed. A recovery
that returns leaves the data at the live path (`Settled`).

The copy is followed statement by statement (`Copying`) : which sequences and tables exist
in `.compact`, and which tables are filled. A leftover `.compact` on which the copy cannot
start afresh has the first sequence already, so the first statement fails (`Startable`).

`SwapStore` puts compactions, recoveries, writes and kills in any order.
`compaction_keeps_copy` : in every state they reach, in the middle of a program too, one of
the three files is a complete copy, and whenever recovery returns `Ok` it is the live one.
-/

namespace ChunkHound

open CrashHoare StepSystem

/-- The rows of every table. -/
abbrev Contents := TableName → Option (List Row)

/-- The file is a complete copy of the data. -/
def IsCopy (data : Contents) (f : Option DbFile) : Prop :=
  ∃ img, f = some (.image img) ∧ img.WF ∧ img.tables = data

/-- The copy starts afresh on the content, or fails at its first statement. -/
def DbImage.Startable (img : DbImage) : Prop :=
  img = .empty ∨ (img.sequences .filesIdSeq).isSome

/-- A leftover `.compact` a copy may start on. -/
def Startable (f : Option DbFile) : Prop :=
  ∀ img, f = some (.image img) → img.Startable

/-- Where the data is, for each intent. -/
def Safe (data : Contents) (d : Disk) : Prop :=
  Startable d.compact ∧ match d.intent with
    | none => IsCopy data d.live
    | some .preSwap => IsCopy data d.live ∨ d.live = none ∧ IsCopy data d.old
    | some .phase1 => IsCopy data d.live ∨ d.live = none ∧ IsCopy data d.old
    | some .phase2 =>
      d.compact = none ∧ IsCopy data d.live ∨ d.live = none ∧ IsCopy data d.compact
    | some (.other _) => False

/-- The intent was cut while it was written, with the data live or aside. -/
def Torn (data : Contents) (d : Disk) : Prop :=
  ∃ text, d.intent = some (.other text) ∧
    (IsCopy data d.live ∨ d.live = none ∧ IsCopy data d.old)

/-- There is a complete copy, and the intent says where or is torn. -/
def Held (data : Contents) (d : Disk) : Prop := Safe data d ∨ Torn data d

/-- The data is at the live path, and no intent says otherwise. -/
structure Settled (data : Contents) (d : Disk) : Prop where
  live : IsCopy data d.live
  startable : Startable d.compact
  intent : ∀ text, d.intent ≠ some (.other text)
  phase2 : d.intent = some .phase2 → d.compact = none

variable {data : Contents}

variable {d : Disk}

theorem Safe.hasCopy (h : Safe data d) :
    IsCopy data d.live ∨ IsCopy data d.old ∨ IsCopy data d.compact := by
  obtain ⟨-, h⟩ := h
  split at h
  · exact Or.inl h
  · exact h.imp_right fun h => Or.inl h.2
  · exact h.imp_right fun h => Or.inl h.2
  · rcases h with ⟨-, h⟩ | ⟨-, h⟩
    · exact Or.inl h
    · exact Or.inr (Or.inr h)
  · exact h.elim

theorem Held.hasCopy (h : Held data d) :
    IsCopy data d.live ∨ IsCopy data d.old ∨ IsCopy data d.compact := by
  rcases h with h | ⟨-, -, h | ⟨-, h⟩⟩
  · exact h.hasCopy
  · exact Or.inl h
  · exact Or.inr (Or.inl h)

theorem Settled.safe (h : Settled data d) : Safe data d := by
  refine ⟨h.startable, ?_⟩
  split
  · exact h.live
  · exact Or.inl h.live
  · exact Or.inl h.live
  · rename_i hi
    exact Or.inl ⟨h.phase2 hi, h.live⟩
  · rename_i text hi
    exact h.intent text hi

/-- Only a missing live file keeps a safe disk from being settled. -/
theorem Safe.settled (h : Safe data d) (hl : d.live ≠ none) :
    Settled data d := by
  obtain ⟨hs, h⟩ := h
  cases hi : d.intent with
  | none =>
    rw [hi] at h
    exact ⟨h, hs, by simp [hi], by simp [hi]⟩
  | some i =>
    rw [hi] at h
    cases i with
    | preSwap => exact ⟨h.resolve_right fun h => hl h.1, hs, by simp [hi], by simp [hi]⟩
    | phase1 => exact ⟨h.resolve_right fun h => hl h.1, hs, by simp [hi], by simp [hi]⟩
    | phase2 =>
      obtain ⟨hc, hlive⟩ := h.resolve_right fun h => hl h.1
      exact ⟨hlive, hs, by simp [hi], fun _ => hc⟩
    | other text => exact h.elim

/-- A live file that is there is the copy. -/
theorem Held.live (h : Held data d) (hl : d.live ≠ none) :
    IsCopy data d.live := by
  rcases h with h | ⟨-, -, h | ⟨hnone, -⟩⟩
  · exact (h.settled hl).live
  · exact h
  · exact absurd hnone hl

variable {f : Option DbFile}

theorem IsCopy.not_missing (h : IsCopy data f) :
    isMissingOrEmpty f = false := by
  obtain ⟨img, rfl, -⟩ := h
  rfl

theorem IsCopy.startable (h : IsCopy data f) :
    Startable f := by
  obtain ⟨img, rfl, hwf, -⟩ := h
  intro img' heq
  obtain rfl : img = img' := by simpa using heq
  exact Or.inr (hwf.sequences .filesIdSeq)

theorem startable_none : Startable none := fun _ h => nomatch h

/-! ## Steps on a settled disk -/

section Settled

variable {data : Contents}

variable {d : Disk}

/-- What is at `.old` does not matter while the data is live. -/
theorem Settled.setOld (h : Settled data d) (f : Option DbFile) :
    Settled data { d with old := f } :=
  ⟨h.live, h.startable, h.intent, h.phase2⟩

theorem Settled.dropCompact (h : Settled data d) :
    Settled data { d with compact := none } :=
  ⟨h.live, startable_none, h.intent, fun _ => rfl⟩

theorem Settled.dropIntent (h : Settled data d) :
    Settled data { d with intent := none } :=
  ⟨h.live, h.startable, by simp, by simp⟩

theorem removeOld_settled :
    Triple (Settled data) (removeDbFileBestEffort .old) (fun _ => Settled data) (Safe data) := by
  refine Triple.attempt (Triple.act (fun _ h => h) fun d d' h hd => ?_) fun _ h => h.safe
  obtain ⟨_, -, rfl⟩ := Option.map_eq_some_iff.1 hd
  exact ⟨h.setOld none, h.setOld none⟩

theorem removeCompact_settled :
    Triple (Settled data) (removeDbFileBestEffort .compact) (fun _ => Settled data)
      (Safe data) := by
  refine Triple.attempt (Triple.act (fun _ h => h) fun d d' h hd => ?_) fun _ h => h.safe
  obtain ⟨_, -, rfl⟩ := Option.map_eq_some_iff.1 hd
  exact ⟨h.dropCompact, h.dropCompact⟩

theorem removeIntent_settled :
    Triple (Settled data) (Prog.attempt removeIntent) (fun _ => Settled data) (Safe data) := by
  refine Triple.attempt (Triple.act (fun _ h => h) fun d d' h hd => ?_) fun _ h => h.safe
  obtain ⟨_, -, rfl⟩ := Option.map_eq_some_iff.1 hd
  exact ⟨h.dropIntent, h.dropIntent⟩

theorem Disk.live_self {f : Option DbFile} (h : d.live = f) :
    { d with live := f } = d := by
  rw [← h]

theorem reopen_settled : Triple (Settled data) reopen (fun _ => Settled data) (Safe data) := by
  refine Triple.seq (M := Settled data) (Triple.seq (M := Settled data) ?_ ?_) ?_
  · refine Triple.act (fun _ h => h.safe) fun d d' h hd => ?_
    obtain ⟨img, hl, -⟩ := h.live
    obtain rfl : d = d' := by
      rw [← Option.some.inj hd]
      simp only [Disk.setFile, Disk.file, hl, Option.getD_some, Disk.live_self hl]
    exact ⟨h, h.safe⟩
  · refine Triple.act (fun _ h => h.safe) fun d d' h hd => ?_
    obtain ⟨img, hl, -⟩ := h.live
    obtain rfl : d = d' := by
      rw [← Option.some.inj hd]
      simp only [Disk.setFile, Disk.file, hl, openedImage, Disk.live_self hl]
    exact ⟨h, h.safe⟩
  · refine Triple.act (fun _ h => h.safe) fun d d' h hd => ?_
    obtain ⟨img, hl, hwf, -⟩ := h.live
    obtain rfl : d = d' := by
      rw [hl] at hd
      rw [← Option.some.inj hd, DbImage.setupSchema_of_wf hwf, Disk.live_self hl]
    exact ⟨h, h.safe⟩

end Settled

/-! ## Recovery -/

section Recovery

variable {data : Contents}

/-- A disk whose live file was moved aside by a compaction : the data is at `.old`. -/
structure Aside (data : Contents) (d : Disk) : Prop where
  intent : d.intent = some .preSwap ∨ d.intent = some .phase1
  live : d.live = none
  old : IsCopy data d.old
  startable : Startable d.compact

/-- A disk whose swap is all but finished : the data is at `.compact`. -/
structure Unswapped (data : Contents) (d : Disk) : Prop where
  intent : d.intent = some .phase2
  live : d.live = none
  compact : IsCopy data d.compact

variable {d : Disk}

theorem Aside.safe (h : Aside data d) : Safe data d := by
  refine ⟨h.startable, ?_⟩
  rcases h.intent with hi | hi
  · rw [hi]
    exact Or.inr ⟨h.live, h.old⟩
  · rw [hi]
    exact Or.inr ⟨h.live, h.old⟩

theorem Unswapped.safe (h : Unswapped data d) : Safe data d := by
  refine ⟨h.compact.startable, ?_⟩
  rw [h.intent]
  exact Or.inr ⟨h.live, h.compact⟩

/-- Moving `.old` back settles the disk. -/
theorem Aside.restore {d d' : Disk} (h : Aside data d)
    (hd : (d.file .old).map (fun f => (d.setFile .live (some f)).setFile .old none) = some d') :
    Settled data d' := by
  obtain ⟨f, hf, rfl⟩ := Option.map_eq_some_iff.1 hd
  obtain ⟨img, hold, hwf, hdata⟩ := h.old
  have hfi : f = .image img := by
    have hf : d.old = some f := hf
    rw [hold] at hf
    exact (Option.some.inj hf).symm
  subst hfi
  refine ⟨⟨img, rfl, hwf, hdata⟩, h.startable, ?_, ?_⟩
  · intro text ht
    rcases h.intent with hi | hi <;> simp [Disk.setFile, hi] at ht
  · intro ht
    rcases h.intent with hi | hi <;> simp [Disk.setFile, hi] at ht

/-- Moving `.compact` to the live path settles the disk. -/
theorem Unswapped.finish {d d' : Disk} (h : Unswapped data d)
    (hd : (d.file .compact).map (fun f => (d.setFile .live (some f)).setFile .compact none) =
      some d') : Settled data d' := by
  obtain ⟨f, hf, rfl⟩ := Option.map_eq_some_iff.1 hd
  obtain ⟨img, hc, hwf, hdata⟩ := h.compact
  have hfi : f = .image img := by
    have hf : d.compact = some f := hf
    rw [hc] at hf
    exact (Option.some.inj hf).symm
  subst hfi
  refine ⟨⟨img, rfl, hwf, hdata⟩, startable_none, ?_, fun _ => rfl⟩
  intro text ht
  simp [Disk.setFile, h.intent] at ht

/-- There is nothing to remove at a live path that is missing. -/
theorem removeLive_missing {P : Disk → Prop} (hP : ∀ d, P d → d.live = none) :
    Triple P removeLive (fun _ => P) (Safe data) := by
  refine Triple.get_bind fun d hd => ?_
  rw [if_neg (by simp [hP d hd])]
  refine Triple.pure _ ?_
  rintro _ rfl
  exact hd

theorem renameOldLive_aside :
    Triple (Aside data) (renameDbWithWal .old .live) (fun _ => Settled data) (Safe data) :=
  Triple.act (fun _ h => h.safe) fun _ _ h hd => ⟨h.restore hd, (h.restore hd).safe⟩

theorem renameCompactLive_unswapped :
    Triple (Unswapped data) (renameDbWithWal .compact .live) (fun _ => Settled data)
      (Safe data) :=
  Triple.act (fun _ h => h.safe) fun _ _ h hd => ⟨h.finish hd, (h.finish hd).safe⟩

/-- Before a swap, or in its first phase, the data is live or at `.old`. -/
theorem Safe.settled_or_aside (h : Safe data d)
    (hi : d.intent = some .preSwap ∨ d.intent = some .phase1) :
    Settled data d ∨ Aside data d := by
  by_cases hl : d.live = none
  · refine Or.inr ⟨hi, hl, ?_, h.1⟩
    have h2 := h.2
    have hnot : ¬IsCopy data d.live := by
      rw [hl]
      rintro ⟨img, himg, -⟩
      cases himg
    rcases hi with hi | hi
    · rw [hi] at h2
      exact (h2.resolve_left hnot).2
    · rw [hi] at h2
      exact (h2.resolve_left hnot).2
  · exact Or.inl (h.settled hl)

theorem Safe.settled_or_unswapped (h : Safe data d) (hi : d.intent = some .phase2) :
    Settled data d ∨ Unswapped data d := by
  by_cases hl : d.live = none
  · have h2 := h.2
    rw [hi] at h2
    rcases h2 with ⟨-, img, himg, -⟩ | ⟨-, hc⟩
    · rw [hl] at himg
      cases himg
    · exact Or.inr ⟨hi, hl, hc⟩
  · exact Or.inl (h.settled hl)

theorem restoreOld_safe (phase : String) :
    Triple (fun d => Settled data d ∨ Aside data d) (restoreOld phase)
      (fun _ => Settled data) (Safe data) := by
  refine Triple.get_bind fun d hd => ?_
  rcases hd with hd | hd
  · rw [if_neg (by simp [hd.live.not_missing]), if_neg (by simp [hd.live.not_missing])]
    refine Triple.pure _ ?_
    rintro _ rfl
    exact hd
  · obtain ⟨img, hold, -⟩ := hd.old
    rw [if_pos ⟨by simp [hold], by rw [hd.live]; rfl⟩]
    refine Triple.pre (P := Aside data) ?_ fun s hs => hs ▸ hd
    exact Triple.seq (removeLive_missing fun _ h => h.live) renameOldLive_aside

theorem recoverPreSwapOrPhase1_safe (phase : String) :
    Triple (fun d => Settled data d ∨ Aside data d) (recoverPreSwapOrPhase1 phase)
      (fun _ => Settled data) (Safe data) :=
  Triple.seq (restoreOld_safe phase) removeIntent_settled

theorem finishPhase2_safe :
    Triple (fun d => d.intent = some .phase2 ∧ (Settled data d ∨ Unswapped data d)) finishPhase2
      (fun _ => Settled data) (Safe data) := by
  refine Triple.get_bind fun d hd => ?_
  obtain ⟨hi, hd | hd⟩ := hd
  · rw [if_neg (by simp [hd.phase2 hi]), if_neg (by simp [hd.live.not_missing])]
    refine Triple.pure _ ?_
    rintro _ rfl
    exact hd
  · obtain ⟨img, hc, -⟩ := hd.compact
    rw [if_pos (by simp [hc])]
    refine Triple.pre (P := Unswapped data) ?_ fun s hs => hs ▸ hd
    exact Triple.seq (removeLive_missing fun _ h => h.live) renameCompactLive_unswapped

theorem dropBackup_settled :
    Triple (Settled data) dropBackup (fun _ => Settled data) (Safe data) := by
  refine Triple.get_bind fun d hd => ?_
  refine Triple.pre (P := Settled data) ?_ fun s hs => hs ▸ hd
  split
  · exact Triple.seq removeOld_settled removeIntent_settled
  · exact Triple.pure _ fun _ h => h

theorem recoverPhase2_safe :
    Triple (fun d => d.intent = some .phase2 ∧ (Settled data d ∨ Unswapped data d)) recoverPhase2
      (fun _ => Settled data) (Safe data) :=
  Triple.seq finishPhase2_safe dropBackup_settled

/-- Recovery from any safe disk keeps it safe, and settles it when it returns. -/
theorem recoverSwapIntent_safe :
    Triple (Safe data) recoverSwapIntent (fun _ => Settled data) (Safe data) := by
  refine Triple.get_bind fun d hd => ?_
  split
  · rename_i hi
    have hnone : d.intent = none := Option.isNone_iff_eq_none.1 hi
    have hlive := hd.2
    rw [hnone] at hlive
    refine Triple.pure _ ?_
    rintro _ rfl
    exact ⟨hlive, hd.1, by simp [hnone], by simp [hnone]⟩
  · refine Triple.bind (Triple.query fun s hs => hs ▸ hd) fun intent => ?_
    cases intent with
    | preSwap =>
      refine Triple.seq (M := Settled data) ?_ (Triple.pure _ fun _ h => h)
      refine Triple.pre (recoverPreSwapOrPhase1_safe _) ?_
      rintro _ ⟨rfl, hi⟩
      exact hd.settled_or_aside (Or.inl hi)
    | phase1 =>
      refine Triple.seq (M := Settled data) ?_ (Triple.pure _ fun _ h => h)
      refine Triple.pre (recoverPreSwapOrPhase1_safe _) ?_
      rintro _ ⟨rfl, hi⟩
      exact hd.settled_or_aside (Or.inr hi)
    | phase2 =>
      refine Triple.seq (M := Settled data) ?_ (Triple.pure _ fun _ h => h)
      refine Triple.pre recoverPhase2_safe ?_
      rintro _ ⟨rfl, hi⟩
      exact ⟨hi, hd.settled_or_unswapped hi⟩
    | other text =>
      refine Triple.vacuous ?_
      rintro _ ⟨rfl, hi⟩
      have h := hd.2
      rw [hi] at h
      exact h

/-- Recovery does return when nothing fails. -/
theorem Safe.recover_returns (h : Safe data d) :
    ∃ recovered d' rest, recoverSwapIntent d (List.replicate 4 .ok) = .done recovered d' rest := by
  obtain ⟨live, old, compact, intent⟩ := d
  cases intent with
  | none => exact ⟨_, _, _, rfl⟩
  | some i =>
    cases i with
    | preSwap =>
      rcases h.settled_or_aside (Or.inl rfl) with h | ⟨-, rfl, ⟨img, rfl, -⟩, -⟩
      · obtain ⟨img, rfl, -⟩ := h.live
        cases old <;> exact ⟨_, _, _, rfl⟩
      · exact ⟨_, _, _, rfl⟩
    | phase1 =>
      rcases h.settled_or_aside (Or.inr rfl) with h | ⟨-, rfl, ⟨img, rfl, -⟩, -⟩
      · obtain ⟨img, rfl, -⟩ := h.live
        cases old <;> exact ⟨_, _, _, rfl⟩
      · exact ⟨_, _, _, rfl⟩
    | phase2 =>
      rcases h.settled_or_unswapped rfl with h | ⟨-, rfl, img, rfl, -⟩
      · obtain ⟨img, rfl, -⟩ := h.live
        obtain rfl := h.phase2 rfl
        cases old <;> exact ⟨_, _, _, rfl⟩
      · cases old <;> exact ⟨_, _, _, rfl⟩
    | other text => exact h.2.elim

theorem discardIncompleteCompactIfPhase1_settled (recovered : RecoveredSwap) :
    Triple (Settled data) (discardIncompleteCompactIfPhase1 recovered) (fun _ => Settled data)
      (Safe data) := by
  refine Triple.get_bind fun d hd => ?_
  refine Triple.pre (P := Settled data) ?_ fun s hs => hs ▸ hd
  split
  · exact Triple.pure _ fun _ h => h
  · split
    · exact Triple.pure _ fun _ h => h
    · split
      · exact removeCompact_settled
      · exact Triple.pure _ fun _ h => h

/-- Recovery refuses a torn intent, and changes nothing. -/
theorem recoverSwapIntent_torn {Q : RecoveredSwap → Disk → Prop} :
    Triple (Torn data) recoverSwapIntent Q (Torn data) := by
  refine Triple.get_bind fun d hd => ?_
  obtain ⟨text, hi, -⟩ := id hd
  rw [if_neg (by simp [hi])]
  refine Triple.bind (Triple.query fun s hs => hs ▸ hd) fun intent => ?_
  have hother : ∀ s : Disk, s = d ∧ s.intent = some intent → intent = .other text := by
    rintro _ ⟨rfl, hs⟩
    exact Option.some.inj (hs.symm.trans hi)
  cases intent with
  | preSwap => exact Triple.vacuous fun s hs => nomatch hother s hs
  | phase1 => exact Triple.vacuous fun s hs => nomatch hother s hs
  | phase2 => exact Triple.vacuous fun s hs => nomatch hother s hs
  | other text' => exact Triple.throw _ fun s hs => hs.1 ▸ hd

theorem recoverSwapIntent_held :
    Triple (Held data) recoverSwapIntent (fun _ => Settled data) (Held data) :=
  Triple.or_pre (recoverSwapIntent_safe.crash fun _ h => Or.inl h)
    (recoverSwapIntent_torn.crash fun _ h => Or.inr h)

theorem readFileStatesRecovery_held :
    Triple (Held data) readFileStatesRecovery (fun _ => Settled data) (Held data) :=
  Triple.bind recoverSwapIntent_held fun recovered =>
    (discardIncompleteCompactIfPhase1_settled recovered).crash fun _ h => Or.inl h

theorem openDb_held : Triple (Held data) openDb (fun _ => Settled data) (Held data) :=
  Triple.bind recoverSwapIntent_held fun recovered =>
    Triple.crash (Triple.seq (discardIncompleteCompactIfPhase1_settled recovered) reopen_settled)
      fun _ h => Or.inl h

end Recovery

/-! ## Building a copy, wherever it is built -/

section Executes

variable {src : DbImage}

/-- A condition that a later copy can start on what is there, or fails at once. -/
abbrev Stable (J : DbImage → Prop) : Prop := ∀ img, J img → img.Startable

theorem Copying.startable {img : DbImage} {seqs : List SequenceName}
    {created filled : List TableName} (h : Copying src seqs created filled img)
    (hseq : .filesIdSeq ∈ seqs) : img.Startable :=
  Or.inr ((h.sequences _).2 hseq)

variable {σ ε : Type} {exec : Statement → Prog σ ε PUnit}
  {building : (DbImage → Prop) → σ → Prop} {C : σ → Prop}

/-- `exec` runs a statement on the database under construction. -/
def Executes (src : DbImage) (exec : Statement → Prog σ ε PUnit)
    (building : (DbImage → Prop) → σ → Prop) (C : σ → Prop) : Prop :=
  ∀ ⦃stmt : Statement⦄ ⦃J K : DbImage → Prop⦄, Stable J → Stable K →
    (∀ img img', J img → stmt.apply src img = some img' → K img') →
    Triple (building J) (exec stmt) (fun _ => building K) C

namespace Executes

variable {seqs seqs' : List SequenceName} {created created' filled filled' : List TableName}

/-- A statement once the first sequence is there. -/
theorem copying (hx : Executes src exec building C) {stmt : Statement}
    (hseq : .filesIdSeq ∈ seqs) (hseq' : .filesIdSeq ∈ seqs')
    (h : ∀ img img', Copying src seqs created filled img → stmt.apply src img = some img' →
      Copying src seqs' created' filled' img') :
    Triple (building (Copying src seqs created filled)) (exec stmt)
      (fun _ => building (Copying src seqs' created' filled')) C :=
  hx (fun _ hi => hi.startable hseq) (fun _ hi => hi.startable hseq') h

/-- The first statement fails on a leftover that is not empty. -/
theorem createFilesIdSeq (hx : Executes src exec building C) (start : ℤ) :
    Triple (building DbImage.Startable) (exec (.createSequence .filesIdSeq start))
      (fun _ => building (Copying src [.filesIdSeq] [] [])) C := by
  refine hx (fun _ h => h) (fun _ h => h.startable (List.mem_singleton_self _))
    fun img img' hst ha => ?_
  rcases hst with rfl | hseq
  · exact Copying.empty_nil.createSequence ha
  · simp [Statement.apply, DbImage.createSequence, hseq] at ha

/-- A created embedding table was not there, so it is not among the filled ones. -/
theorem createEmbeddings (hx : Executes src exec building C) (hseq : .filesIdSeq ∈ seqs)
    (dims : ℕ) :
    Triple (building (Copying src seqs created filled)) (exec (.createTable (.embeddings dims)))
      (fun _ => building fun img => Copying src seqs (created ++ [.embeddings dims]) filled img ∧
        .embeddings dims ∉ filled) C := by
  refine hx (fun _ h => h.startable hseq) (fun _ h => h.1.startable hseq)
    fun img img' h ha => ⟨h.createTable ha, ?_⟩
  exact (h.not_mem_created (Copying.tables_of_createTable ha)).2

theorem fillEmbeddings (hx : Executes src exec building C) (hsrc : src.WF)
    (hseq : .filesIdSeq ∈ seqs) (dims : ℕ) :
    Triple (building fun img => Copying src seqs created filled img ∧ .embeddings dims ∉ filled)
      (exec (.insertSelect (.embeddings dims) embCol))
      (fun _ => building (Copying src seqs created (filled ++ [.embeddings dims]))) C := by
  refine hx (fun _ h => h.1.startable hseq) (fun _ h => h.startable hseq) fun img img' h ha => ?_
  exact h.1.insertSelect hsrc (by simp [columnsOf, embCol]) h.2 ha

end Executes

/-- The tables the copy creates, and the order it fills them in. -/
def createdTables (embTables : List ℕ) : List TableName :=
  [.files, .chunks, .schemaVersion] ++ embTables.map .embeddings

def filledTables (embTables : List ℕ) : List TableName :=
  [.schemaVersion, .files, .chunks] ++ embTables.map .embeddings

def createdSequences : List SequenceName := [.filesIdSeq, .chunksIdSeq, .embeddingsIdSeq]

/-- One table after the other is created and filled, wherever the copy is built. -/
theorem forM_copying {copyTable : ℕ → Prog σ ε PUnit}
    (h : ∀ done dims, Triple
      (building (Copying src createdSequences (createdTables done) (filledTables done)))
      (copyTable dims) (fun _ => building (Copying src createdSequences
        (createdTables done ++ [.embeddings dims]) (filledTables done ++ [.embeddings dims]))) C)
    (embTables : List ℕ) :
    Triple (building (Copying src createdSequences (createdTables []) (filledTables [])))
      (embTables.forM copyTable) (fun _ => building (Copying src createdSequences
        (createdTables embTables) (filledTables embTables))) C := by
  refine Triple.forM (I := fun done _ => building
    (Copying src createdSequences (createdTables done) (filledTables done))) ?_ embTables []
  intro done dims rest
  simpa [createdTables, filledTables] using h done dims

/-- A copy that has filled every table of the source is complete. -/
theorem Copying.complete_all (hsrc : src.WF) {img : DbImage}
    (h : Copying src createdSequences (createdTables src.embeddingTables)
      (filledTables src.embeddingTables) img) : img.WF ∧ img.tables = src.tables := by
  refine h.complete hsrc (by intro name; cases name <;> decide) ?_ ?_
  · intro name hs
    cases name with
    | files => simp [filledTables]
    | chunks => simp [filledTables]
    | schemaVersion => simp [filledTables]
    | embeddings dims => simpa [filledTables] using (hsrc.catalog dims).2 hs
  · intro name hn
    simp only [createdTables, filledTables, List.mem_append, List.mem_cons, List.not_mem_nil,
      or_false] at hn ⊢
    tauto

end Executes

/-! ## Building the copy -/

section Build

variable {src : DbImage}

/-- The disk while `.compact` is built from `.old`, with a condition on what is in it. -/
structure Building (src : DbImage) (J : DbImage → Prop) (d : Disk) : Prop where
  intent : d.intent = some .phase1
  live : d.live = none
  old : d.old = some (.image src)
  compact : ∃ img, d.compact = some (.image img) ∧ J img

variable {J : DbImage → Prop}

theorem Building.safe (hsrc : src.WF) (hJ : Stable J)
    {d : Disk} (h : Building src J d) : Safe src.tables d := by
  refine ⟨fun img himg => ?_, ?_⟩
  · obtain ⟨img', hc, hj⟩ := h.compact
    obtain rfl : img' = img := by simpa [hc] using himg
    exact hJ img' hj
  · rw [h.intent]
    exact Or.inr ⟨h.live, src, h.old, hsrc, rfl⟩

/-- A statement takes one condition on the new database to another. -/
theorem executeBatch_executes (hsrc : src.WF) :
    Executes src executeBatch (Building src) (Safe src.tables) := by
  intro stmt J K hJ hK h
  refine Triple.act (fun _ hd => hd.safe hsrc hJ) fun d d' hd hd' => ?_
  suffices hb : Building src K d' from ⟨hb, hb.safe hsrc hK⟩
  obtain ⟨img, hc, hj⟩ := hd.compact
  simp only [hc, hd.old] at hd'
  obtain ⟨img', himg', rfl⟩ := Option.map_eq_some_iff.1 hd'
  exact ⟨hd.intent, hd.live, rfl, img', rfl, h img img' hj himg'⟩

theorem querySrc_building (hsrc : src.WF) {α : Type} {f : DbImage → Option α}
    (hJ : Stable J) :
    Triple (Building src J) (querySrc f) (fun a d => Building src J d ∧ f src = some a)
      (Safe src.tables) := by
  refine Triple.conseq (Triple.query fun _ hd => hd.safe hsrc hJ) (fun _ hd => hd) ?_
  rintro a d ⟨hd, ha⟩
  rw [hd.old] at ha
  exact ⟨hd, ha⟩

/-- A query whose value the copy does not depend on. -/
theorem srcMaxId_building (hsrc : src.WF) (hJ : Stable J) (name : TableName) :
    Triple (Building src J) (srcMaxId name) (fun _ => Building src J) (Safe src.tables) :=
  (querySrc_building hsrc hJ).conseq (fun _ h => h) fun _ _ h => h.1

theorem maxEmbeddingId_building (hsrc : src.WF)
    (hJ : Stable J) (embTables : List ℕ) :
    Triple (Building src J) (maxEmbeddingId embTables) (fun _ => Building src J)
      (Safe src.tables) :=
  Triple.foldlM (fun _ dims => (srcMaxId_building hsrc hJ (.embeddings dims)).bind fun _ =>
    Triple.pure _ fun _ h => h) embTables 0

/-- `Connection::open` finds nothing, or a leftover the copy may start on. -/
theorem openCompact_building (hsrc : src.WF) :
    Triple (fun d => d.intent = some .phase1 ∧ d.live = none ∧ d.old = some (.image src) ∧
        Startable d.compact) (openConnection .compact)
      (fun _ => Building src DbImage.Startable) (Safe src.tables) := by
  have hsafe : ∀ d : Disk, d.intent = some .phase1 ∧ d.live = none ∧
      d.old = some (.image src) ∧ Startable d.compact → Safe src.tables d := by
    rintro d ⟨hi, hl, ho, hc⟩
    refine ⟨hc, ?_⟩
    rw [hi]
    exact Or.inr ⟨hl, src, ho, hsrc, rfl⟩
  refine Triple.seq (Triple.act hsafe fun d d' hd hd' => ?_)
    (Triple.act hsafe fun d d' hd hd' => ?_)
  · obtain ⟨hi, hl, ho, hc⟩ := hd
    obtain rfl := Option.some.inj hd'
    have hd1 : Startable (some (d.compact.getD .zeroLength)) := by
      intro img himg
      cases hcd : d.compact with
      | none => simp [hcd] at himg
      | some f => exact hc img (by simpa [hcd] using himg)
    exact ⟨⟨hi, hl, ho, hd1⟩, hsafe _ ⟨hi, hl, ho, hd1⟩⟩
  · obtain ⟨hi, hl, ho, hc⟩ := hd
    obtain rfl := Option.some.inj hd'
    have hst : (openedImage d.compact).Startable := by
      unfold openedImage
      split
      · exact hc _ (by assumption)
      · exact Or.inl rfl
    have hb : Building src DbImage.Startable
        (d.setFile .compact (some (.image (openedImage d.compact)))) :=
      ⟨hi, hl, ho, _, rfl, hst⟩
    exact ⟨hb, hb.safe hsrc fun _ h => h⟩

theorem attachOld_building (hsrc : src.WF) (hJ : Stable J) :
    Triple (Building src J) attachOld (fun _ => Building src J) (Safe src.tables) := by
  refine Triple.act (fun _ hd => hd.safe hsrc hJ) fun d d' hd hd' => ?_
  obtain rfl := Option.some.inj hd'
  have hb : Building src J { d with old := some (.image (openedImage d.old)) } :=
    ⟨hd.intent, hd.live, by simp [hd.old, openedImage], hd.compact⟩
  exact ⟨hb, hb.safe hsrc hJ⟩

/-- A `.compact` that was built is a complete copy. -/
theorem Building.unswapped (hsrc : src.WF) {d : Disk}
    (h : Building src (Copying src createdSequences (createdTables src.embeddingTables)
      (filledTables src.embeddingTables)) d) : IsCopy src.tables d.compact := by
  obtain ⟨img, hc, hcopy⟩ := h.compact
  exact ⟨img, hc, hcopy.complete_all hsrc⟩

/-- A build that returns leaves a complete copy at `.compact`. -/
theorem buildCompact_building (hsrc : src.WF) :
    Triple (fun d => d.intent = some .phase1 ∧ d.live = none ∧ d.old = some (.image src) ∧
        Startable d.compact) buildCompact
      (fun _ d => d.intent = some .phase1 ∧ d.live = none ∧ d.old = some (.image src) ∧
        IsCopy src.tables d.compact) (Safe src.tables) := by
  have hst : Stable DbImage.Startable := fun _ h => h
  have hx := executeBatch_executes hsrc
  refine Triple.seq (openCompact_building hsrc) (Triple.seq (attachOld_building hsrc hst) ?_)
  refine Triple.bind (srcMaxId_building hsrc hst .files) fun maxFileId => ?_
  refine Triple.bind (srcMaxId_building hsrc hst .chunks) fun maxChunkId => ?_
  refine Triple.bind (querySrc_building hsrc hst) fun embTables => Triple.and_pre fun hemb => ?_
  obtain rfl : src.embeddingTables = embTables := Option.some.inj hemb
  refine Triple.bind (maxEmbeddingId_building hsrc hst _) fun maxEmbId => ?_
  refine Triple.seq (hx.createFilesIdSeq _) ?_
  refine Triple.seq (hx.copying (by decide) (by decide) fun _ _ h ha => h.createSequence ha) ?_
  refine Triple.seq (hx.copying (by decide) (by decide) fun _ _ h ha => h.createSequence ha) ?_
  refine Triple.seq (hx.copying (by decide) (by decide) fun _ _ h ha => h.createTable ha) ?_
  refine Triple.seq (hx.copying (by decide) (by decide) fun _ _ h ha => h.createTable ha) ?_
  refine Triple.seq (hx.copying (by decide) (by decide) fun _ _ h ha => h.createTable ha) ?_
  refine Triple.seq (hx.copying (by decide) (by decide)
    fun _ _ h ha => h.insertSelectStar (by decide) ha) ?_
  refine Triple.seq (hx.copying (by decide) (by decide)
    fun _ _ h ha => h.insertSelect hsrc (by decide) (by decide) ha) ?_
  refine Triple.seq (hx.copying (by decide) (by decide)
    fun _ _ h ha => h.insertSelect hsrc (by decide) (by decide) ha) ?_
  refine Triple.seq (forM_copying
    (fun _ dims => Triple.seq (hx.createEmbeddings (by decide) dims)
      (Triple.seq (hx.fillEmbeddings hsrc (by decide) dims)
        (hx.copying (by decide) (by decide) fun _ _ h ha => h.other ha))) src.embeddingTables) ?_
  refine Triple.seq (hx.copying (by decide) (by decide) fun _ _ h ha => h.other ha) ?_
  refine Triple.conseq (hx.copying (by decide) (by decide)
    fun _ _ h ha => h.other ha) (fun _ h => h) fun _ d h => ?_
  exact ⟨h.intent, h.live, h.old, h.unswapped hsrc⟩

end Build

/-! ## The whole compaction -/

section Compaction

variable {data : Contents}

/-- Writing an intent : each piece leaves a torn one, with the data where it was. -/
theorem writeIntent_held {phase : SwapIntent} {P Q : Disk → Prop}
    (hP : ∀ d, P d → Held data d)
    (htorn : ∀ d text, P d → Torn data { d with intent := some (.other text) })
    (hput : ∀ d, P d → Q { d with intent := some phase }) (hQ : ∀ d, Q d → Held data d) :
    Triple P (writeIntent phase) (fun _ => Q) (Held data) := by
  have hpieces : Triple (fun d => Held data d ∧ ∃ i, P { d with intent := i })
      ((tornTexts phase).forM fun text => putIntent (.other text))
      (fun _ d => Held data d ∧ ∃ i, P { d with intent := i }) (Held data) := by
    refine Triple.forM (I := fun _ _ d => Held data d ∧ ∃ i, P { d with intent := i }) ?_ _ []
    refine fun _ text _ => Triple.act (fun _ h => h.1) fun d d' h hd => ?_
    obtain rfl := Option.some.inj hd
    obtain ⟨-, i, hi⟩ := h
    have hheld : Held data { d with intent := some (.other text) } := Or.inr (htorn { d with intent := i } text hi)
    exact ⟨⟨hheld, i, hi⟩, hheld⟩
  refine Triple.pre (Triple.seq hpieces (Triple.seq (M := Q) ?_ ?_))
    fun d hd => ⟨hP d hd, d.intent, hd⟩
  · refine Triple.act (fun _ h => h.1) fun d d' h hd => ?_
    obtain rfl := Option.some.inj hd
    obtain ⟨-, i, hi⟩ := h
    have hq : Q { d with intent := some phase } := hput { d with intent := i } hi
    exact ⟨hq, hQ _ hq⟩
  · refine Triple.act hQ fun d d' h hd => ?_
    obtain rfl := Option.some.inj hd
    exact ⟨h, hQ d h⟩

/-- Writing an intent that allows the data to be live. -/
theorem writePreSwap_settled :
    Triple (Settled data) (writeIntent .preSwap)
      (fun _ d => Settled data d ∧ d.intent = some .preSwap) (Held data) :=
  writeIntent_held (fun _ h => Or.inl h.safe) (fun _ text h => ⟨text, rfl, Or.inl h.live⟩)
    (fun _ h => ⟨⟨h.live, h.startable, by simp, by simp⟩, rfl⟩) fun _ h => Or.inl h.1.safe

/-- Moving the live database aside. -/
theorem renameLiveOld_aside :
    Triple (fun d => Settled data d ∧ d.intent = some .preSwap) (renameDbWithWal .live .old)
      (fun _ => Aside data) (Safe data) := by
  refine Triple.act (fun _ h => h.1.safe) fun d d' h hd => ?_
  obtain ⟨f, hf, rfl⟩ := Option.map_eq_some_iff.1 hd
  have hcopy : IsCopy data (some f) := by
    have hlive := h.1.live
    rwa [show d.live = some f from hf] at hlive
  have ha : Aside data ((d.setFile .old (some f)).setFile .live none) :=
    ⟨Or.inl h.2, rfl, hcopy, h.1.startable⟩
  exact ⟨ha, ha.safe⟩

/-- From here on the copy is made of one fixed content. -/
theorem writePhase1_aside :
    Triple (Aside data) (writeIntent .phase1)
      (fun _ d => ∃ src : DbImage, (d.intent = some .phase1 ∧ d.live = none ∧
        d.old = some (.image src) ∧ Startable d.compact) ∧ src.WF ∧ src.tables = data)
      (Held data) := by
  refine writeIntent_held (fun _ h => Or.inl h.safe)
    (fun _ text h => ⟨text, rfl, Or.inr ⟨h.live, h.old⟩⟩) ?_ ?_
  · intro d h
    obtain ⟨src, hold, hsrc, hdata⟩ := h.old
    exact ⟨src, ⟨rfl, h.live, hold, h.startable⟩, hsrc, hdata⟩
  · rintro d ⟨src, ⟨hi, hl, ho, hc⟩, hsrc, hdata⟩
    exact Or.inl (Aside.safe ⟨Or.inr hi, hl, ⟨src, ho, hsrc, hdata⟩, hc⟩)

theorem writePhase2_unswapped {src : DbImage} (hsrc : src.WF) :
    Triple (fun d => d.intent = some .phase1 ∧ d.live = none ∧ d.old = some (.image src) ∧
        IsCopy src.tables d.compact) (writeIntent .phase2) (fun _ => Unswapped src.tables)
      (Held src.tables) := by
  refine writeIntent_held ?_ ?_ ?_ fun _ h => Or.inl h.safe
  · rintro d ⟨hi, hl, ho, hc⟩
    exact Or.inl (Aside.safe ⟨Or.inr hi, hl, ⟨src, ho, hsrc, rfl⟩, hc.startable⟩)
  · rintro d text ⟨-, hl, ho, -⟩
    exact ⟨text, rfl, Or.inr ⟨hl, src, ho, hsrc, rfl⟩⟩
  · rintro d ⟨-, hl, -, hc⟩
    exact ⟨rfl, hl, hc⟩

theorem removeLeftovers_settled :
    Triple (Settled data) removeLeftovers (fun _ => Settled data) (Safe data) := by
  refine Triple.get_bind fun d hd => ?_
  refine Triple.pre (P := Settled data) ?_ fun s hs => hs ▸ hd
  split
  · exact Triple.pure _ fun _ h => h
  · exact Triple.seq removeOld_settled removeCompact_settled

theorem checkpoint_settled :
    Triple (Settled data) checkpoint (fun _ => Settled data) (Safe data) := by
  refine Triple.act (fun _ h => h.safe) fun d d' h hd => ?_
  obtain rfl := Option.some.inj hd
  exact ⟨h, h.safe⟩

/-- A compaction keeps a copy at every point, and leaves the data live. -/
theorem runAttachCopyCompaction_held :
    Triple (Settled data) runAttachCopyCompaction (fun _ => Settled data) (Held data) := by
  have hheld : ∀ {P M : Disk → Prop} {p : SwapM Unit}, Triple P p (fun _ => M) (Safe data) →
      Triple P p (fun _ => M) (Held data) := fun h => h.crash fun _ h => Or.inl h
  refine Triple.seq (hheld checkpoint_settled) (Triple.seq (hheld removeLeftovers_settled) ?_)
  refine Triple.seq writePreSwap_settled (Triple.seq (hheld renameLiveOld_aside) ?_)
  refine Triple.seq writePhase1_aside (Triple.exists_pre fun src => Triple.and_pre ?_)
  rintro ⟨hsrc, rfl⟩
  refine Triple.seq (hheld (buildCompact_building hsrc))
    (Triple.seq (writePhase2_unswapped hsrc) (hheld ?_))
  refine Triple.seq renameCompactLive_unswapped (Triple.seq removeIntent_settled ?_)
  exact Triple.seq removeOld_settled reopen_settled

end Compaction

/-! ## Runs of the store -/

/-- The disk, what the index holds (ghost), and whether a connection is open. -/
structure SwapStore where
  disk : Disk
  data : Contents
  isOpen : Bool

/-- What happens to the store. The outcomes of a program say what its actions come to, and
where it is killed. -/
inductive SwapStep
  /-- A write session commits a new content. -/
  | write (img : { img : DbImage // img.WF })
  /-- The process ends, or is killed, between two programs. -/
  | exit
  | compact (os : List Outcome)
  | openDb (os : List Outcome)
  | readFileStates (os : List Outcome)

namespace SwapStore

/-- A database with the content, just opened. -/
def opened (img : DbImage) : SwapStore where
  disk := ⟨some (.image img), none, none, none⟩
  data := img.tables
  isOpen := true

/-- The store a program leaves : a connection stays only when it returns. -/
def after (s : SwapStore) (connected : Bool) : Result Disk SwapError Unit → SwapStore
  | .done _ d _ => ⟨d, s.data, connected⟩
  | .error _ d _ => ⟨d, s.data, false⟩
  | .killed d => ⟨d, s.data, false⟩

theorem after_disk (s : SwapStore) (connected : Bool) :
    ∀ r : Result Disk SwapError Unit, (s.after connected r).disk = r.state
  | .done _ _ _ => rfl
  | .error _ _ _ => rfl
  | .killed _ => rfl

/-- Compaction closes the open connection. Recovery runs while there is none. -/
def step (s : SwapStore) : SwapStep → Option SwapStore
  | .write img =>
    if s.isOpen then some ⟨{ s.disk with live := some (.image img) }, img.1.tables, true⟩
    else none
  | .exit => some { s with isOpen := false }
  | .compact os =>
    if s.isOpen then some (s.after true (runAttachCopyCompaction s.disk os)) else none
  | .openDb os =>
    if s.isOpen then none else some (s.after true (ChunkHound.openDb s.disk os))
  | .readFileStates os =>
    if s.isOpen then none else some (s.after false (readFileStatesRecovery s.disk os))

/-- There is a copy, and the disk is settled while a connection is open. -/
def Inv (s : SwapStore) : Prop :=
  Held s.data s.disk ∧ (s.isOpen → Settled s.data s.disk)

theorem Inv.after {s : SwapStore} {p : SwapM Unit} {P : Disk → Prop} {os : List Outcome}
    (h : Triple P p (fun _ => Settled s.data) (Held s.data)) (hP : P s.disk) (c : Bool) :
    Inv (s.after c (p s.disk os)) := by
  have hm := h s.disk hP os
  cases hr : p s.disk os with
  | done a d os' =>
    rw [hr] at hm
    exact ⟨Or.inl (Settled.safe hm), fun _ => hm⟩
  | error e d os' =>
    rw [hr] at hm
    exact ⟨hm, nofun⟩
  | killed d =>
    rw [hr] at hm
    exact ⟨hm, nofun⟩

theorem Inv.step {s s' : SwapStore} {a : SwapStep} (h : Inv s) (hs : s.step a = some s') :
    Inv s' := by
  cases a with
  | write img =>
    simp only [SwapStore.step] at hs
    split at hs
    · rename_i ho
      obtain rfl := Option.some.inj hs
      have hset := h.2 ho
      have hnew : Settled img.1.tables { s.disk with live := some (.image img.1) } :=
        ⟨⟨img, rfl, img.2, rfl⟩, hset.startable, hset.intent, hset.phase2⟩
      exact ⟨Or.inl hnew.safe, fun _ => hnew⟩
    · cases hs
  | exit =>
    obtain rfl := Option.some.inj hs
    exact ⟨h.1, nofun⟩
  | compact os =>
    simp only [SwapStore.step] at hs
    split at hs
    · rename_i ho
      obtain rfl := Option.some.inj hs
      exact Inv.after runAttachCopyCompaction_held (h.2 ho) true
    · cases hs
  | openDb os =>
    simp only [SwapStore.step] at hs
    split at hs
    · cases hs
    · obtain rfl := Option.some.inj hs
      exact Inv.after openDb_held h.1 true
  | readFileStates os =>
    simp only [SwapStore.step] at hs
    split at hs
    · cases hs
    · obtain rfl := Option.some.inj hs
      exact Inv.after readFileStatesRecovery_held h.1 false

theorem inv_opened {img : DbImage} (h : img.WF) : Inv (opened img) := by
  have hs : Settled img.tables (opened img).disk :=
    ⟨⟨img, rfl, h, rfl⟩, startable_none, by simp [opened], by simp [opened]⟩
  exact ⟨Or.inl hs.safe, fun _ => hs⟩

theorem inv_of_reach {img : DbImage} (h : img.WF) {s : SwapStore}
    (hs : Reach SwapStore.step (opened img) s) : Inv s :=
  hs.invariant (inv_opened h) fun _ _ _ hi _ hst => hi.step hst

end SwapStore

/-- In every state that writes, compactions, recoveries and kills lead to, one of the three
files is a complete copy of the index, and a recovery that returns `Ok` leaves a complete
copy at the live path. -/
theorem compaction_keeps_copy {img : DbImage} (himg : img.WF) {s : SwapStore}
    (h : Reach SwapStore.step (SwapStore.opened img) s) :
    (IsCopy s.data s.disk.live ∨ IsCopy s.data s.disk.old ∨ IsCopy s.data s.disk.compact) ∧
      ∀ os recovered d rest, recoverSwapIntent s.disk os = .done recovered d rest →
        IsCopy s.data d.live := by
  obtain ⟨hheld, -⟩ := SwapStore.inv_of_reach himg h
  refine ⟨hheld.hasCopy, fun os recovered d rest hr => ?_⟩
  have hm := recoverSwapIntent_held.of_done hheld hr
  exact Settled.live hm

/-- A compaction killed once the live file is moved aside, and a recovery killed before it
moves the file back. -/
def killedSwap : List SwapStep := [.compact (List.replicate 14 .ok), .openDb [.ok]]

theorem compaction_keeps_copy_killedSwap :
    ∃ s : SwapStore, s.disk.live = none ∧ s.disk.intent = some .preSwap ∧
      (IsCopy s.data s.disk.live ∨ IsCopy s.data s.disk.old ∨ IsCopy s.data s.disk.compact) ∧
      ∀ os recovered d rest, recoverSwapIntent s.disk os = .done recovered d rest →
        IsCopy s.data d.live := by
  have hrun : execute SwapStore.step (SwapStore.opened DbImage.empty.setupSchema) killedSwap =
      some ⟨⟨none, some (.image DbImage.empty.setupSchema), none, some .preSwap⟩,
        DbImage.empty.setupSchema.tables, false⟩ := by
    cbv
  exact ⟨_, rfl, rfl, compaction_keeps_copy DbImage.wf_setupSchema_empty
    (Reach.of_execute killedSwap hrun)⟩

end ChunkHound
