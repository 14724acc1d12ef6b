import ChunkHound.StepSystem
import Mathlib.Logic.Function.Basic

/-!
# The PID lock

Any number of processes take and release a lock that is a file with the PID of its holder. Between
two operations on the file another process may run, and any process may be killed : a file is
created, then written, a stale one is opened, read, judged and unlinked by its path.

Two processes that judge the same stale file may both take the lock, when the second unlinks the
file that the first created (`stale_unlink_two_holders`). A process killed before it wrote its PID
leaves an empty file, which is never judged stale. In runs where neither happens there is one holder (`one_holder_of_orderly`), and a lock whose holders are gone can
be taken (`recovers_of_orderly`).

A process is its PID, and files are told apart by numbers that are not used again. A process that
was killed stays dead.
-/

namespace ChunkHound.PidLock

open StepSystem

/-! ## Processes -/

/-- Where a process is : between calls, in `_acquire_pid_lock` on the given attempt, with the lock,
or in `_release_pid_lock`. -/
inductive Phase
  | idle
  | dead
  | creating (attempt : ℕ)
  | writing (file : ℕ)
  | opening (attempt : ℕ)
  | reading (attempt file : ℕ)
  | deciding (attempt file holderPid : ℕ)
  | unlinking (attempt file : ℕ)
  | holding
  | releaseOpening
  | releaseReading (file : ℕ)
  | releaseUnlinking (file : ℕ)
  deriving DecidableEq

/-- From the return of `_acquire_pid_lock` to that of `_release_pid_lock`. -/
def Phase.uses : Phase → Bool
  | .holding => true
  | .releaseOpening => true
  | .releaseReading _ => true
  | .releaseUnlinking _ => true
  | _ => false

def Phase.isWriting : Phase → Bool
  | .writing _ => true
  | _ => false

/-- `path` is the file at the path of the lock, and the content of a file is the PID in it. -/
structure State where
  path : Option ℕ
  next : ℕ
  content : ℕ → Option ℕ
  phases : ℕ → Phase

inductive Act
  | acquire
  | release
  | run
  | kill
  deriving DecidableEq

def start : State := ⟨none, 0, fun _ => none, fun _ => .idle⟩

namespace State

def goto (s : State) (p : ℕ) (phase : Phase) : State :=
  { s with phases := Function.update s.phases p phase }

/-- The branch of `_acquire_pid_lock` for a file that cannot be read. -/
def retry (s : State) (p attempt : ℕ) : State :=
  if attempt = 0 then s.goto p (.creating 1) else s.goto p .idle

/-- One operation of a process. -/
def advance (s : State) (p : ℕ) : Option State :=
  match s.phases p with
  | .idle => none
  | .dead => none
  | .holding => none
  | .creating attempt =>
    match s.path with
    | none =>
      some ({ s with
        path := some s.next
        next := s.next + 1
        content := Function.update s.content s.next none }.goto p (.writing s.next))
    | some _ => some (s.goto p (.opening attempt))
  | .writing i => some ({ s with content := Function.update s.content i (some p) }.goto p .holding)
  | .opening attempt =>
    match s.path with
    | none => some (s.retry p attempt)
    | some i => some (s.goto p (.reading attempt i))
  | .reading attempt i =>
    match s.content i with
    | none => some (s.retry p attempt)
    | some holderPid => some (s.goto p (.deciding attempt i holderPid))
  | .deciding attempt i holderPid =>
    if s.phases holderPid = .dead then some (s.goto p (.unlinking attempt i))
    else some (s.goto p .idle)
  | .unlinking attempt _ => some ({ s with path := none }.retry p attempt)
  | .releaseOpening =>
    match s.path with
    | none => some (s.goto p .idle)
    | some i => some (s.goto p (.releaseReading i))
  | .releaseReading i =>
    if s.content i = some p then some (s.goto p (.releaseUnlinking i)) else some (s.goto p .idle)
  | .releaseUnlinking _ => some ({ s with path := none }.goto p .idle)

end State

def step (s : State) (a : ℕ × Act) : Option State :=
  match a.2 with
  | .acquire => if s.phases a.1 = .idle then some (s.goto a.1 (.creating 0)) else none
  | .release =>
    if s.phases a.1 = .idle ∨ s.phases a.1 = .holding then some (s.goto a.1 .releaseOpening)
    else none
  | .run => s.advance a.1
  | .kill => if s.phases a.1 = .dead then none else some (s.goto a.1 .dead)

/-- No process is killed between creating the file and writing to it, and none unlinks a file other
than the stale one it read. -/
def Orderly (s : State) (a : ℕ × Act) : Prop :=
  match a.2, s.phases a.1 with
  | .kill, phase => phase.isWriting = false
  | .run, .unlinking _ i => s.path = some i ∨ s.path = none
  | _, _ => True

instance : ∀ (s : State) (a : ℕ × Act), Decidable (Orderly s a) := fun s a => by
  unfold Orderly
  split <;> infer_instance

/-- At most one process has the lock. -/
def OneHolder (s : State) : Prop :=
  ∀ p q, s.phases p = .holding → s.phases q = .holding → p = q

/-- Once nobody has the lock any more, a call succeeds : that of a process that runs alone, or of
one that has created the file already. -/
def Recovers (s : State) : Prop :=
  (∀ q, (s.phases q).uses = false) → ∀ p, s.phases p = .idle →
    ∃ q acts, (∀ a ∈ acts, a.1 = q ∧ a.2 ≠ .kill) ∧
      (execute step s acts).map (fun s' => s'.phases q) = some .holding

/-! ## Invariant -/

namespace State

variable {s : State} {p q : ℕ} {phase phase' : Phase}

@[simp] theorem goto_self : (s.goto p phase).phases p = phase := Function.update_self ..

theorem goto_other (h : q ≠ p) : (s.goto p phase).phases q = s.phases q :=
  Function.update_of_ne h ..

/-- What a process in a phase has seen is so. -/
def Fits (s : State) (p : ℕ) : Phase → Prop
  | .writing i => s.path = some i ∧ s.content i = none
  | .holding => ∃ i, s.path = some i ∧ s.content i = some p
  | .reading _ i => i < s.next
  | .deciding _ i holderPid => i < s.next ∧ s.content i = some holderPid
  | .unlinking _ i => i < s.next ∧ ∃ d, s.content i = some d ∧ s.phases d = .dead
  | .releaseReading i => i < s.next ∧ (s.content i = some p → s.path = some i) ∧
    ∀ j, s.path = some j → s.content j = some p → i = j
  | .releaseUnlinking i => s.path = some i ∧ s.content i = some p
  | _ => True

/-- The file is empty while its creator is about to write to it, and else names a process that is
dead or uses the lock. -/
def Named (s : State) (i : ℕ) : Prop :=
  match s.content i with
  | none => ∃ q, s.phases q = .writing i
  | some d => s.phases d = .dead ∨ (s.phases d).uses = true

variable {i : ℕ}

theorem named_of_empty (hc : s.content i = none) (hp : s.phases p = .writing i) :
    s.Named i := by
  unfold Named
  rw [hc]
  exact ⟨p, hp⟩

theorem named_of_content (hc : s.content i = some p)
    (hp : s.phases p = .dead ∨ (s.phases p).uses = true) : s.Named i := by
  unfold Named
  rw [hc]
  exact hp

structure Inv (s : State) : Prop where
  fresh : ∀ i, s.path = some i → i < s.next
  fits : ∀ p, s.Fits p (s.phases p)
  named : ∀ i, s.path = some i → s.Named i
  writer : ∀ p q i, s.phases p = .writing i → s.phases q = .writing i → p = q

theorem Fits.goto (h : s.Fits q phase) (hp : s.phases p ≠ .dead) :
    (s.goto p phase').Fits q phase := by
  cases phase with
  | unlinking attempt i =>
    obtain ⟨hi, d, hd, hdead⟩ := h
    refine ⟨hi, d, hd, ?_⟩
    rw [goto_other]
    · exact hdead
    · rintro rfl
      exact hp hdead
  | _ => exact h

/-- A process goes to a phase that fits, while those of the others still fit. -/
theorem fits_goto (hp : s.phases p ≠ .dead) (hself : s.Fits p phase)
    (hothers : ∀ q, q ≠ p → s.Fits q (s.phases q)) (q : ℕ) :
    (s.goto p phase).Fits q ((s.goto p phase).phases q) := by
  by_cases hq : q = p
  · subst hq
    rw [goto_self]
    exact hself.goto hp
  · rw [goto_other hq]
    exact (hothers q hq).goto hp

/-- A process that goes to a phase other than writing adds no writer. -/
theorem writer_goto (h : ∀ q r i, s.phases q = .writing i → s.phases r = .writing i → q = r)
    (hphase : phase.isWriting = false) (q r i : ℕ) (hq : (s.goto p phase).phases q = .writing i)
    (hr : (s.goto p phase).phases r = .writing i) : q = r := by
  have hne : ∀ {t}, (s.goto p phase).phases t = .writing i → t ≠ p := by
    rintro t ht rfl
    rw [goto_self] at ht
    rw [ht] at hphase
    cases hphase
  rw [goto_other (hne hq)] at hq
  rw [goto_other (hne hr)] at hr
  exact h q r i hq hr

/-- A process changes its phase, and the file does not change. -/
theorem Inv.goto (h : s.Inv) (hp : s.phases p ≠ .dead) (hwriting : (s.phases p).isWriting = false)
    (hphase : phase.isWriting = false) (hfits : s.Fits p phase)
    (hnamed : ∀ i, s.path = some i → s.content i = some p →
      phase = .dead ∨ phase.uses = true) : (s.goto p phase).Inv where
  fresh := h.fresh
  fits := fits_goto hp hfits fun q _ => h.fits q
  named i hi := by
    have hold := h.named i hi
    unfold Named at hold ⊢
    rw [show (s.goto p phase).content i = s.content i from rfl]
    cases hc : s.content i with
    | none =>
      rw [hc] at hold
      obtain ⟨q, hq⟩ := hold
      refine ⟨q, ?_⟩
      rw [goto_other]
      · exact hq
      · rintro rfl
        rw [hq] at hwriting
        cases hwriting
    | some d =>
      rw [hc] at hold
      dsimp only at hold ⊢
      by_cases hd : d = p
      · subst hd
        rw [goto_self]
        exact hnamed i hi hc
      · rwa [goto_other hd]
  writer := writer_goto h.writer hphase

/-- A process creates the file. -/
theorem Inv.create (h : s.Inv) (hp : s.phases p ≠ .dead) (hpath : s.path = none) :
    ({ s with
      path := some s.next
      next := s.next + 1
      content := Function.update s.content s.next none }.goto p (.writing s.next)).Inv where
  fresh i hi := by
    obtain rfl := Option.some.inj hi
    exact Nat.lt_succ_self _
  fits := by
    have hsame : ∀ {i}, i < s.next → Function.update s.content s.next none i = s.content i :=
      fun hi => Function.update_of_ne (Nat.ne_of_lt hi) ..
    refine fits_goto hp ⟨rfl, Function.update_self ..⟩ fun q _ => ?_
    have hfits := h.fits q
    show Fits _ q (s.phases q)
    cases hphase : s.phases q with
    | writing i =>
      rw [hphase] at hfits
      cases hpath.symm.trans hfits.1
    | holding =>
      rw [hphase] at hfits
      obtain ⟨i, hi, -⟩ := hfits
      cases hpath.symm.trans hi
    | releaseUnlinking i =>
      rw [hphase] at hfits
      cases hpath.symm.trans hfits.1
    | reading attempt i =>
      rw [hphase] at hfits
      exact Nat.lt_succ_of_lt hfits
    | deciding attempt i holderPid =>
      rw [hphase] at hfits
      exact ⟨Nat.lt_succ_of_lt hfits.1, (hsame hfits.1).trans hfits.2⟩
    | unlinking attempt i =>
      rw [hphase] at hfits
      obtain ⟨hi, d, hd, hdead⟩ := hfits
      exact ⟨Nat.lt_succ_of_lt hi, d, (hsame hi).trans hd, hdead⟩
    | releaseReading i =>
      rw [hphase] at hfits
      obtain ⟨hi, hown, -⟩ := hfits
      refine ⟨Nat.lt_succ_of_lt hi, fun hc => ?_, fun j hj hc => ?_⟩
      · cases hpath.symm.trans (hown ((hsame hi).symm.trans hc))
      · obtain rfl := Option.some.inj hj
        have hnew : Function.update s.content s.next none s.next = none :=
          Function.update_self ..
        cases hnew.symm.trans hc
    | _ => trivial
  named i hi := by
    obtain rfl := Option.some.inj hi
    exact named_of_empty (Function.update_self ..) goto_self
  writer q r i hq hr := by
    have hp' : ∀ {t}, ({ s with
      path := some s.next
      next := s.next + 1
      content := Function.update s.content s.next none }.goto p (.writing s.next)).phases t =
        .writing i → t = p := by
      intro t ht
      by_contra hne
      rw [goto_other hne] at ht
      have hfits := h.fits t
      rw [show s.phases t = .writing i from ht] at hfits
      cases hpath.symm.trans hfits.1
    rw [hp' hq, hp' hr]

/-- The creator writes its PID, and returns with the lock. -/
theorem Inv.write (h : s.Inv) (hp : s.phases p = .writing i) :
    ({ s with content := Function.update s.content i (some p) }.goto p .holding).Inv := by
  obtain ⟨hpath, hempty⟩ : s.Fits p (.writing i) := hp ▸ h.fits p
  have halive : s.phases p ≠ .dead := by
    rw [hp]
    nofun
  have hself : Function.update s.content i (some p) i = some p := Function.update_self ..
  have hsame : ∀ {j d}, s.content j = some d → Function.update s.content i (some p) j = some d := by
    intro j d hj
    rw [Function.update_of_ne]
    · exact hj
    · rintro rfl
      rw [hempty] at hj
      cases hj
  constructor
  · exact h.fresh
  · refine fits_goto halive ⟨i, hpath, hself⟩ fun q hq => ?_
    have hfits := h.fits q
    show Fits _ q (s.phases q)
    cases hphase : s.phases q with
    | writing j =>
      rw [hphase] at hfits
      obtain rfl := Option.some.inj (hpath.symm.trans hfits.1)
      exact absurd (h.writer q p i hphase hp) hq
    | holding =>
      rw [hphase] at hfits
      obtain ⟨j, hj, hc⟩ := hfits
      exact ⟨j, hj, hsame hc⟩
    | releaseUnlinking j =>
      rw [hphase] at hfits
      exact ⟨hfits.1, hsame hfits.2⟩
    | reading attempt j =>
      rw [hphase] at hfits
      exact hfits
    | deciding attempt j holderPid =>
      rw [hphase] at hfits
      exact ⟨hfits.1, hsame hfits.2⟩
    | unlinking attempt j =>
      rw [hphase] at hfits
      obtain ⟨hj, d, hd, hdead⟩ := hfits
      exact ⟨hj, d, hsame hd, hdead⟩
    | releaseReading j =>
      rw [hphase] at hfits
      obtain ⟨hj, hown, hpath'⟩ := hfits
      refine ⟨hj, fun hc => ?_, fun k hk hc => ?_⟩
      · by_cases hji : j = i
        · subst hji
          exact hpath
        · exact hown ((Function.update_of_ne hji ..).symm.trans hc)
      · obtain rfl : k = i := Option.some.inj (hk.symm.trans hpath)
        exact absurd (Option.some.inj (hself.symm.trans hc)).symm hq
    | _ => trivial
  · intro j hj
    obtain rfl : j = i := Option.some.inj (hj.symm.trans hpath)
    refine named_of_content hself (Or.inr ?_)
    rw [goto_self]
    rfl
  · exact writer_goto h.writer rfl

/-- The file of a dead process or of one's own is unlinked. -/
theorem Inv.unlink (h : s.Inv) (hp : s.phases p ≠ .dead)
    (hphase : phase = .creating 1 ∨ phase = .idle)
    (hown : ∀ i, s.path = some i → ∃ d, s.content i = some d ∧ (s.phases d = .dead ∨ d = p)) :
    ({ s with path := none }.goto p phase).Inv where
  fresh i hi := by cases hi
  fits := by
    refine fits_goto hp (by rcases hphase with rfl | rfl <;> trivial) fun q hq => ?_
    have hfits := h.fits q
    -- the file is that of no other live process
    have hnot : ∀ i, s.path = some i → s.phases q ≠ .dead → s.content i ≠ some q := by
      intro i hi hlive hc
      obtain ⟨d, hd, hdead | rfl⟩ := hown i hi
      · obtain rfl := Option.some.inj (hc.symm.trans hd)
        exact hlive hdead
      · exact hq (Option.some.inj (hc.symm.trans hd))
    show Fits _ q (s.phases q)
    cases hqphase : s.phases q with
    | writing i =>
      rw [hqphase] at hfits
      obtain ⟨d, hd, -⟩ := hown i hfits.1
      cases hfits.2.symm.trans hd
    | holding =>
      rw [hqphase] at hfits hnot
      obtain ⟨i, hi, hc⟩ := hfits
      exact absurd hc (hnot i hi nofun)
    | releaseUnlinking i =>
      rw [hqphase] at hfits hnot
      exact absurd hfits.2 (hnot i hfits.1 nofun)
    | reading attempt i =>
      rw [hqphase] at hfits
      exact hfits
    | deciding attempt i holderPid =>
      rw [hqphase] at hfits
      exact hfits
    | unlinking attempt i =>
      rw [hqphase] at hfits
      exact hfits
    | releaseReading i =>
      rw [hqphase] at hfits hnot
      obtain ⟨hi, hpath, -⟩ := hfits
      refine ⟨hi, fun hc => absurd hc (hnot i (hpath hc) nofun), fun j hj => by cases hj⟩
    | _ => trivial
  named i hi := by cases hi
  writer := writer_goto h.writer (by rcases hphase with rfl | rfl <;> rfl)

/-- The file does not name a live process that does not use the lock. -/
theorem Inv.not_named (h : s.Inv) (hp : s.phases p ≠ .dead) (huses : (s.phases p).uses = false)
    (hi : s.path = some i) : s.content i ≠ some p := by
  intro hc
  have hnamed := h.named i hi
  unfold Named at hnamed
  rw [hc] at hnamed
  rcases hnamed with hdead | hnamed
  · exact hp hdead
  · rw [huses] at hnamed
    cases hnamed

/-- A process that does not use the lock goes to another phase. -/
theorem Inv.gotoUnused (h : s.Inv) (hp : s.phases p ≠ .dead) (huses : (s.phases p).uses = false)
    (hwriting : (s.phases p).isWriting = false) (hphase : phase.isWriting = false)
    (hfits : s.Fits p phase) : (s.goto p phase).Inv :=
  h.goto hp hwriting hphase hfits fun _ hi hc => absurd hc (h.not_named hp huses hi)

theorem Inv.retry (h : s.Inv) {attempt : ℕ} (hp : s.phases p ≠ .dead)
    (huses : (s.phases p).uses = false) (hwriting : (s.phases p).isWriting = false) :
    (s.retry p attempt).Inv := by
  unfold State.retry
  split
  · exact h.gotoUnused hp huses hwriting rfl trivial
  · exact h.gotoUnused hp huses hwriting rfl trivial

theorem Inv.advance (h : s.Inv) (hok : Orderly s (p, .run)) {s' : State}
    (hs : s.advance p = some s') : s'.Inv := by
  have hfits := h.fits p
  unfold Orderly at hok
  unfold State.advance at hs
  have hlive : s.phases p ≠ .dead := by
    intro hdead
    simp [hdead] at hs
  cases hphase : s.phases p with
  | idle => simp [hphase] at hs
  | dead => simp [hphase] at hs
  | holding => simp [hphase] at hs
  | creating attempt =>
    have huses : (s.phases p).uses = false := congrArg Phase.uses hphase
    cases hpath : s.path with
    | none =>
      simp only [hphase, hpath, Option.some.injEq] at hs
      subst hs
      exact h.create hlive hpath
    | some i =>
      simp only [hphase, hpath, Option.some.injEq] at hs
      subst hs
      exact h.gotoUnused hlive huses (congrArg Phase.isWriting hphase) rfl trivial
  | writing i =>
    simp only [hphase, Option.some.injEq] at hs
    subst hs
    exact h.write hphase
  | opening attempt =>
    have hwriting : (s.phases p).isWriting = false := congrArg Phase.isWriting hphase
    have huses : (s.phases p).uses = false := congrArg Phase.uses hphase
    cases hpath : s.path with
    | none =>
      simp only [hphase, hpath, Option.some.injEq] at hs
      subst hs
      exact h.retry hlive huses hwriting
    | some i =>
      simp only [hphase, hpath, Option.some.injEq] at hs
      subst hs
      exact h.gotoUnused hlive huses hwriting rfl (h.fresh i hpath)
  | reading attempt i =>
    have hwriting : (s.phases p).isWriting = false := congrArg Phase.isWriting hphase
    have huses : (s.phases p).uses = false := congrArg Phase.uses hphase
    rw [hphase] at hfits
    cases hc : s.content i with
    | none =>
      simp only [hphase, hc, Option.some.injEq] at hs
      subst hs
      exact h.retry hlive huses hwriting
    | some holderPid =>
      simp only [hphase, hc, Option.some.injEq] at hs
      subst hs
      exact h.gotoUnused hlive huses hwriting rfl ⟨hfits, hc⟩
  | deciding attempt i holderPid =>
    have hwriting : (s.phases p).isWriting = false := congrArg Phase.isWriting hphase
    have huses : (s.phases p).uses = false := congrArg Phase.uses hphase
    rw [hphase] at hfits
    by_cases hdead : s.phases holderPid = .dead
    · simp only [hphase, if_pos hdead, Option.some.injEq] at hs
      subst hs
      exact h.gotoUnused hlive huses hwriting rfl ⟨hfits.1, holderPid, hfits.2, hdead⟩
    · simp only [hphase, if_neg hdead, Option.some.injEq] at hs
      subst hs
      exact h.gotoUnused hlive huses hwriting rfl trivial
  | unlinking attempt i =>
    rw [hphase] at hfits
    simp only [hphase] at hok
    simp only [hphase, Option.some.injEq] at hs
    subst hs
    have hown : ∀ j, s.path = some j → ∃ d, s.content j = some d ∧
        (s.phases d = .dead ∨ d = p) := by
      intro j hj
      obtain ⟨-, d, hd, hdead⟩ := hfits
      rcases hok with hsame | hnone
      · obtain rfl : i = j := Option.some.inj (hsame.symm.trans hj)
        exact ⟨d, hd, Or.inl hdead⟩
      · cases hnone.symm.trans hj
    unfold State.retry
    split
    · exact h.unlink hlive (Or.inl rfl) hown
    · exact h.unlink hlive (Or.inr rfl) hown
  | releaseOpening =>
    have hwriting : (s.phases p).isWriting = false := congrArg Phase.isWriting hphase
    cases hpath : s.path with
    | none =>
      simp only [hphase, hpath, Option.some.injEq] at hs
      subst hs
      exact h.goto hlive hwriting rfl trivial fun i hi => by cases hpath.symm.trans hi
    | some i =>
      simp only [hphase, hpath, Option.some.injEq] at hs
      subst hs
      exact h.goto hlive hwriting rfl ⟨h.fresh i hpath, fun _ => hpath,
        fun j hj _ => Option.some.inj (hpath.symm.trans hj)⟩ fun _ _ _ => Or.inr rfl
  | releaseReading i =>
    have hwriting : (s.phases p).isWriting = false := congrArg Phase.isWriting hphase
    rw [hphase] at hfits
    obtain ⟨hi, hpath, hown⟩ := hfits
    by_cases hc : s.content i = some p
    · simp only [hphase, if_pos hc, Option.some.injEq] at hs
      subst hs
      exact h.goto hlive hwriting rfl ⟨hpath hc, hc⟩ fun _ _ _ => Or.inr rfl
    · simp only [hphase, if_neg hc, Option.some.injEq] at hs
      subst hs
      refine h.goto hlive hwriting rfl trivial fun j hj hcj => ?_
      obtain rfl := hown j hj hcj
      exact absurd hcj hc
  | releaseUnlinking i =>
    rw [hphase] at hfits
    simp only [hphase, Option.some.injEq] at hs
    subst hs
    refine h.unlink hlive (Or.inr rfl) fun j hj => ?_
    obtain rfl : i = j := Option.some.inj (hfits.1.symm.trans hj)
    exact ⟨p, hfits.2, Or.inr rfl⟩

theorem Inv.step (h : s.Inv) {a : ℕ × Act} (hok : Orderly s a) {s' : State}
    (hs : PidLock.step s a = some s') : s'.Inv := by
  obtain ⟨p, act⟩ := a
  cases act with
  | acquire =>
    obtain ⟨hidle, ⟨⟩⟩ := Option.ite_none_right_eq_some.1 hs
    have hidle : s.phases p = .idle := hidle
    have hlive : s.phases p ≠ .dead := by simp [hidle]
    exact h.gotoUnused hlive (by simp [hidle, Phase.uses]) (by simp [hidle, Phase.isWriting]) rfl
      trivial
  | release =>
    obtain ⟨hfree, ⟨⟩⟩ := Option.ite_none_right_eq_some.1 hs
    have hfree : s.phases p = .idle ∨ s.phases p = .holding := hfree
    have hlive : s.phases p ≠ .dead := by rcases hfree with hf | hf <;> simp [hf]
    have hwriting : (s.phases p).isWriting = false := by
      rcases hfree with hf | hf <;> simp [hf, Phase.isWriting]
    exact h.goto hlive hwriting rfl trivial fun _ _ _ => Or.inr rfl
  | run => exact h.advance hok hs
  | kill =>
    obtain ⟨hlive, ⟨⟩⟩ := Option.ite_none_left_eq_some.1 hs
    exact h.goto hlive hok rfl trivial fun _ _ _ => Or.inl rfl

theorem inv_start : start.Inv where
  fresh i hi := by cases hi
  fits p := trivial
  named i hi := by cases hi
  writer p q i hp := by cases hp

theorem Inv.oneHolder (h : s.Inv) : OneHolder s := by
  intro p q hp hq
  obtain ⟨i, hi, hip⟩ : s.Fits p .holding := hp ▸ h.fits p
  obtain ⟨j, hj, hjq⟩ : s.Fits q .holding := hq ▸ h.fits q
  obtain rfl : i = j := Option.some.inj (hi.symm.trans hj)
  exact Option.some.inj (hip.symm.trans hjq)

/-- The holder is dead, or there is no file, or its creator is about to write to it. -/
theorem Inv.recovers (h : s.Inv) : Recovers s := by
  intro huses p hidle
  cases hpath : s.path with
  | none =>
    refine ⟨p, [(p, .acquire), (p, .run), (p, .run)], by simp, ?_⟩
    simp [execute, PidLock.step, State.advance, State.goto, hidle, hpath]
  | some i =>
    have hnamed := h.named i hpath
    unfold Named at hnamed
    cases hc : s.content i with
    | none =>
      rw [hc] at hnamed
      obtain ⟨q, hq⟩ := hnamed
      refine ⟨q, [(q, .run)], by simp, ?_⟩
      simp [execute, PidLock.step, State.advance, State.goto, hq]
    | some d =>
      rw [hc] at hnamed
      have hdead : s.phases d = .dead := hnamed.resolve_right (by simp [huses d])
      have hne : d ≠ p := by
        rintro rfl
        rw [hidle] at hdead
        cases hdead
      refine ⟨p, (p, .acquire) :: List.replicate 7 (p, .run), by simp [List.replicate], ?_⟩
      simp [execute, PidLock.step, State.advance, State.goto, State.retry, hidle, hpath, hc, hdead,
        hne, List.replicate]

end State

/-! ## Results -/

/-- In runs where no process is killed before it wrote its PID, and none unlinks another file than
the stale one it read, the lock has one holder at most and can be taken once nobody has it. -/
theorem lock_of_orderly {s : State} (h : ReachWhen step Orderly start s) :
    OneHolder s ∧ Recovers s :=
  have hinv : s.Inv := h.invariant State.inv_start fun _ _ _ hi hok hs => hi.step hok hs
  ⟨hinv.oneHolder, hinv.recovers⟩

/-- A holder is killed, and a second process takes over. -/
theorem lock_taken_over : ∃ s, execute (guarded step Orderly) start
      ((0, .acquire) :: (0, .run) :: (0, .run) :: (0, .kill) :: (1, .acquire) ::
        List.replicate 7 (1, .run)) = some s ∧
    s.phases 0 = .dead ∧ s.phases 1 = .holding ∧ OneHolder s ∧ Recovers s := by
  have hsome : ((execute (guarded step Orderly) start
      ((0, .acquire) :: (0, .run) :: (0, .run) :: (0, .kill) :: (1, .acquire) ::
        List.replicate 7 (1, .run))).any fun s => s.phases 0 = .dead ∧ s.phases 1 = .holding) =
      true := by
    decide
  obtain ⟨s, hs, hall⟩ := (Option.any_eq_true _ _).1 hsome
  obtain ⟨hdead, hholding⟩ := of_decide_eq_true hall
  exact ⟨s, hs, hdead, hholding, lock_of_orderly (.of_guarded (.of_execute _ hs))⟩

/-- The next `n` steps are those of the process. -/
def turns (n process : ℕ) : List (ℕ × Act) := List.replicate n (process, .run)

/-- Two processes judge one stale file, and the second unlinks the file of the first. -/
theorem stale_unlink_two_holders : ∃ s, Reach step start s ∧ s.phases 1 = .holding ∧
    s.phases 2 = .holding ∧ ¬(OneHolder s ∧ Recovers s) := by
  have hsome : ((execute step start
      ((0, .acquire) :: (0, .run) :: (0, .run) :: (0, .kill) :: (1, .acquire) :: (2, .acquire) ::
        (turns 4 1 ++ turns 4 2 ++ turns 3 1 ++ turns 3 2))).any fun s => s.phases 1 = .holding ∧
          s.phases 2 = .holding) = true := by
    decide
  obtain ⟨s, hs, hall⟩ := (Option.any_eq_true _ _).1 hsome
  obtain ⟨hone, htwo⟩ := of_decide_eq_true hall
  refine ⟨s, .of_execute _ hs, hone, htwo, fun h => ?_⟩
  exact absurd (h.1 1 2 hone htwo) (by decide)

end ChunkHound.PidLock
