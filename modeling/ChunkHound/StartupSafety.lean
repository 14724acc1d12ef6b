import ChunkHound.DaemonStartup

/-!
# One daemon for overlapping roots

A proxy with the startup locks finds every daemon at work in the files, since each is entered before
the proxy that started it releases the locks. What it has yet to read of the registry is kept with
its stage (`Sees`) : a daemon in its way is one of the entries still to come. When none is left, it
starts a daemon, and nobody else does.

So no two daemons of overlapping roots are live in runs with care (`oneDaemon_of_careful`). If the
proxy is killed before its daemon can be seen, there may be two (`killed_starter_two_daemons`).
-/

namespace ChunkHound.DaemonStartup

open StepSystem

variable {ρ : Type*}

/-! ## Invariant -/

theorem rootsOverlap_self (a : Root) : rootsOverlap a a = true := by
  simp [rootsOverlap]

theorem rootsOverlap_comm (a b : Root) : rootsOverlap a b = rootsOverlap b a := Bool.or_comm ..

/-- The context is within the first startup lock. -/
def Context.holdsCross : Context → Bool
  | .globalBusy | .holding => true
  | _ => false

namespace Stage

/-- The process has the first startup lock. -/
def holdsCross : Stage ρ → Bool
  | .requesting .cross | .acquiring .cross | .freeing .cross _ => false
  | .requesting _ | .acquiring _ | .freeing _ _ | .releasing _ _ => true
  | .reading context | .judging context _ | .unlinking context => context.holdsCross
  | .listing context | .lockPass context _ | .entryPass context _ => context.holdsCross
  | .lockJudging context _ _ _ | .lockUnlinking context _ _ => context.holdsCross
  | .entryJudging context _ _ _ _ | .entryComparing context _ _ _ _ => context.holdsCross
  | .entryUnlinking context _ _ => context.holdsCross
  | .ready | .spawning | .polling _ | .connecting _ _ | .enlisting _ _ | .terminating _ => true
  | _ => false

/-- Where the proxy is, while it looks for daemons. -/
def context : Stage ρ → Option Context
  | .reading context | .judging context _ | .unlinking context => some context
  | .listing context | .lockPass context _ | .entryPass context _ => some context
  | .lockJudging context _ _ _ | .lockUnlinking context _ _ => some context
  | .entryJudging context _ _ _ _ | .entryComparing context _ _ _ _ => some context
  | .entryUnlinking context _ _ => some context
  | _ => none

variable {stage : Stage ρ} {child : ℕ} {context : Context}

theorem holdsCross_of_context (h : stage.context = some context) :
    stage.holdsCross = context.holdsCross := by
  cases stage <;> first | cases h; rfl | cases h

theorem child_of_context (h : stage.context = some context) : stage.child = none := by
  cases stage <;> first | rfl | cases h

theorem up_of_context (h : stage.context = some context) : stage.up = false := by
  cases stage <;> first | rfl | cases h

theorem wrote_of_context (h : stage.context = some context) :
    stage ≠ .unborn ∧ stage ≠ .writing := by
  constructor <;> rintro rfl <;> cases h

theorem holdsCross_of_child (h : stage.child = some child) : stage.holdsCross = true := by
  cases stage <;> first | rfl | cases h

theorem up_of_locked (h : stage.locked = true) : stage.up = true := by
  cases stage <;> first | rfl | cases h

theorem up_of_published (h : stage.published = true) : stage.up = true := by
  cases stage <;> first | rfl | cases h

theorem child_of_up (h : stage.up = true) : stage.child = none := by
  cases stage <;> first | rfl | cases h

end Stage

theorem holdsCross_leave (context : Context) :
    (leave context : Stage ρ).holdsCross = true → context.holdsCross = true := by
  cases context <;> exact id

theorem holdsCross_notReused (context : Context) :
    (notReused context : Stage ρ).holdsCross = true → context.holdsCross = true := by
  cases context <;> exact id

theorem holdsCross_noConflict (context : Context) :
    (noConflict context : Stage ρ).holdsCross = true → context.holdsCross = true := by
  cases context <;> exact id

namespace State

variable {home : ℕ → ρ × Root} {s t : State ρ} {p q d : ℕ} {stage : Stage ρ}

/-- The process may have written a lock. -/
def Wrote (s : State ρ) (p : ℕ) : Prop := s.stages p ≠ .unborn ∧ s.stages p ≠ .writing

/-- What a proxy knows of the daemons at work when it has the startup locks. -/
def Sees (home : ℕ → ρ × Root) (s : State ρ) (p : ℕ) : Stage ρ → Prop
  | .judging .holding pid => ∀ d, (s.stages d).up = true → home d = home p → pid = d
  | .unlinking .holding | .listing .holding | .lockPass .holding _ =>
    ∀ d, (s.stages d).up = true → home d ≠ home p
  | .lockJudging .holding _ _ _ | .lockUnlinking .holding _ _ =>
    ∀ d, (s.stages d).up = true → home d ≠ home p
  | .entryPass .holding todo | .entryUnlinking .holding todo _ =>
    ∀ d, (s.stages d).up = true → rootsOverlap (home p).2 (home d).2 = true →
      home d ≠ home p ∧ (home d).2 ∈ todo
  | .entryJudging .holding todo _ pid key | .entryComparing .holding todo _ pid key =>
    ∀ d, (s.stages d).up = true → rootsOverlap (home p).2 (home d).2 = true →
      home d ≠ home p ∧ ((home d).2 ∈ todo ∨ pid = d ∧ key = home d)
  | .ready | .requesting .starter | .acquiring .starter | .spawning =>
    ∀ d, (s.stages d).up = true → rootsOverlap (home p).2 (home d).2 = false
  | .polling child | .terminating child =>
    home child = home p ∧
      ∀ d, (s.stages d).up = true → rootsOverlap (home p).2 (home d).2 = true → d = child
  | .connecting child pid =>
    (home child = home p ∧
      ∀ d, (s.stages d).up = true → rootsOverlap (home p).2 (home d).2 = true → d = child) ∧
      home pid = home p ∧ s.Wrote pid
  | .enlisting child pid =>
    (home child = home p ∧
      ∀ d, (s.stages d).up = true → rootsOverlap (home p).2 (home d).2 = true → d = child) ∧
      pid = child ∧ s.Wrote pid
  | _ => True

/-- It stays so when daemons end. -/
theorem Sees.mono (hup : ∀ d, (t.stages d).up = true → (s.stages d).up = true)
    (hwrote : ∀ q, s.Wrote q → t.Wrote q) (h : s.Sees home p stage) : t.Sees home p stage := by
  have himp : ∀ {P : ℕ → Prop}, (∀ d, (s.stages d).up = true → P d) →
      ∀ d, (t.stages d).up = true → P d := fun hP d hd => hP d (hup d hd)
  cases stage with
  | judging context pid => cases context <;> first | trivial | exact himp h
  | unlinking context => cases context <;> first | trivial | exact himp h
  | listing context => cases context <;> first | trivial | exact himp h
  | lockPass context todo => cases context <;> first | trivial | exact himp h
  | lockJudging context todo root pid => cases context <;> first | trivial | exact himp h
  | lockUnlinking context todo root => cases context <;> first | trivial | exact himp h
  | entryPass context todo => cases context <;> first | trivial | exact himp h
  | entryUnlinking context todo root => cases context <;> first | trivial | exact himp h
  | entryJudging context todo root pid key => cases context <;> first | trivial | exact himp h
  | entryComparing context todo root pid key => cases context <;> first | trivial | exact himp h
  | requesting name => cases name <;> first | trivial | exact himp h
  | acquiring name => cases name <;> first | trivial | exact himp h
  | ready => exact himp h
  | spawning => exact himp h
  | polling child => exact ⟨h.1, himp h.2⟩
  | terminating child => exact ⟨h.1, himp h.2⟩
  | connecting child pid => exact ⟨⟨h.1.1, himp h.1.2⟩, h.2.1, hwrote pid h.2.2⟩
  | enlisting child pid => exact ⟨⟨h.1.1, himp h.1.2⟩, h.2.1, hwrote pid h.2.2⟩
  | _ => trivial

/-- Without the first startup lock a proxy knows nothing. -/
theorem sees_of_not_holds (hstage : stage.holdsCross = false) : t.Sees home p stage := by
  cases stage with
  | judging context pid => cases context <;> trivial
  | unlinking context => cases context <;> trivial
  | listing context => cases context <;> trivial
  | lockPass context todo => cases context <;> trivial
  | lockJudging context todo root pid => cases context <;> trivial
  | lockUnlinking context todo root => cases context <;> trivial
  | entryPass context todo => cases context <;> trivial
  | entryUnlinking context todo root => cases context <;> trivial
  | entryJudging context todo root pid key => cases context <;> trivial
  | entryComparing context todo root pid key => cases context <;> trivial
  | requesting name => cases name <;> trivial
  | acquiring name => cases name <;> trivial
  | _ => trivial

variable {context : Context}

/-- What is looked for without all locks is not known to be found. -/
theorem sees_of_context (hstage : stage.context = some context)
    (hcontext : context ≠ .holding) : t.Sees home p stage := by
  cases stage <;> cases hstage <;> cases context <;> trivial

structure Inv (home : ℕ → ρ × Root) (s : State ρ) : Prop where
  cross : s.cross.Inv
  holds : ∀ p, (s.stages p).holdsCross = true → s.cross.phases p = .holding
  sees : ∀ p, s.Sees home p (s.stages p)
  enlisted : ∀ d, (s.stages d).up = true → s.Enlisted home d ∨ ∃ p, (s.stages p).child = some d
  disjoint : ∀ d e, (s.stages d).up = true → (s.stages e).up = true →
    rootsOverlap (home d).2 (home e).2 = true → d = e
  locked : ∀ d, (s.stages d).locked = true → s.lock (home d) = some d
  lock_was : ∀ key q, s.lock key = some q → home q = key ∧ s.Wrote q
  names : ∀ root, (s.registry root).isSome = true → root ∈ s.roots

theorem inv_start : Inv home (start : State ρ) where
  cross := PidLock.State.inv_start
  holds _ h := by cases h
  sees _ := trivial
  enlisted _ h := by cases h
  disjoint _ _ h := by cases h
  locked _ h := by cases h
  lock_was _ _ h := by cases h
  names _ h := by cases h

theorem Inv.oneDaemon (h : s.Inv home) : OneDaemon home s := fun d e hd he =>
  h.disjoint d e (Stage.up_of_published hd) (Stage.up_of_published he)

/-- A process that has the startup locks, and has not started a daemon, finds each daemon at work in
the files. -/
theorem Inv.enlisted_of_holds (h : s.Inv home) (hp : (s.stages p).holdsCross = true)
    (hchild : (s.stages p).child = none) (hd : (s.stages d).up = true) : s.Enlisted home d := by
  rcases h.enlisted d hd with henlisted | ⟨q, hq⟩
  · exact henlisted
  · have hholds := h.holds q (Stage.holdsCross_of_child hq)
    obtain rfl := h.cross.oneHolder q p hholds (h.holds p hp)
    rw [hchild] at hq
    cases hq

theorem Inv.enlisted_of_look (h : s.Inv home) (hfrom : (s.stages p).context = some .holding)
    (hd : (s.stages d).up = true) : s.Enlisted home d :=
  h.enlisted_of_holds (Stage.holdsCross_of_context hfrom) (Stage.child_of_context hfrom) hd

/-- A process goes to another stage, and starts no daemon. -/
theorem Inv.move (h : s.Inv home) (hstages : t.stages = Function.update s.stages p stage)
    (hcross : t.cross.Inv) (hphases : ∀ q, q ≠ p → t.cross.phases q = s.cross.phases q)
    (hholds : stage.holdsCross = true → t.cross.phases p = .holding)
    (hup : stage.up = true → (s.stages p).up = true)
    (hwrote : stage ≠ .unborn ∧ stage ≠ .writing) (hsees : s.Sees home p stage)
    (hlock_was : ∀ key q, t.lock key = some q → home q = key ∧ t.Wrote q)
    (hnames : ∀ root, (t.registry root).isSome = true → root ∈ t.roots)
    (hlocked : ∀ d, (t.stages d).locked = true → t.lock (home d) = some d)
    (henlisted : ∀ d, (t.stages d).up = true → s.Enlisted home d → t.Enlisted home d)
    (hchild : ∀ d, (s.stages p).child = some d → (t.stages d).up = true →
      stage.child = some d ∨ t.Enlisted home d) : t.Inv home := by
  have hself : t.stages p = stage := by rw [hstages, Function.update_self]
  have hother : ∀ {q}, q ≠ p → t.stages q = s.stages q := fun hq => by
    rw [hstages, Function.update_of_ne hq]
  have hback : ∀ d, (t.stages d).up = true → (s.stages d).up = true := by
    intro d hd
    by_cases hdp : d = p
    · subst hdp
      rw [hself] at hd
      exact hup hd
    · rwa [hother hdp] at hd
  have hwrote' : ∀ q, s.Wrote q → t.Wrote q := by
    intro q hq
    by_cases hqp : q = p
    · subst hqp
      unfold Wrote
      rwa [hself]
    · unfold Wrote
      rwa [hother hqp]
  refine
    { cross := hcross
      holds := fun q hq => ?_
      sees := fun q => ?_
      enlisted := fun d hd => ?_
      disjoint := fun d e hd he => h.disjoint d e (hback d hd) (hback e he)
      locked := hlocked
      lock_was := hlock_was
      names := hnames }
  · by_cases hqp : q = p
    · subst hqp
      rw [hself] at hq
      exact hholds hq
    · rw [hother hqp] at hq
      exact (hphases q hqp).trans (h.holds q hq)
  · by_cases hqp : q = p
    · subst hqp
      rw [hself]
      exact hsees.mono hback hwrote'
    · rw [hother hqp]
      exact (h.sees q).mono hback hwrote'
  · rcases h.enlisted d (hback d hd) with hen | ⟨q, hq⟩
    · exact Or.inl (henlisted d hd hen)
    · by_cases hqp : q = p
      · subst hqp
        rcases hchild d hq hd with hc | hen
        · exact Or.inr ⟨q, by rw [hself, hc]⟩
        · exact Or.inl hen
      · exact Or.inr ⟨q, by rw [hother hqp, hq]⟩

theorem goto_self : (s.goto p stage).stages p = stage := Function.update_self ..

theorem goto_other (h : q ≠ p) : (s.goto p stage).stages q = s.stages q :=
  Function.update_of_ne h ..

/-- A daemon that is at work in the next stage, where the process starts none, is at work now. -/
theorem up_of_goto (hup : stage.up = true → (s.stages p).up = true)
    (hd : ((s.goto p stage).stages d).up = true) : (s.stages d).up = true := by
  by_cases hdp : d = p
  · subst hdp
    rw [goto_self] at hd
    exact hup hd
  · rwa [goto_other hdp] at hd

theorem locked_of_goto (hlocked : stage.locked = true → (s.stages p).locked = true)
    (hd : ((s.goto p stage).stages d).locked = true) : (s.stages d).locked = true := by
  by_cases hdp : d = p
  · subst hdp
    rw [goto_self] at hd
    exact hlocked hd
  · rwa [goto_other hdp] at hd

theorem Wrote.goto (h : s.Wrote q) (hwrote : stage ≠ .unborn ∧ stage ≠ .writing) :
    (s.goto p stage).Wrote q := by
  unfold Wrote
  by_cases hqp : q = p
  · subst hqp
    rwa [goto_self]
  · rw [goto_other hqp]
    exact h

/-- The same, and no file changes. -/
theorem Inv.goto (h : s.Inv home)
    (hholds : stage.holdsCross = true → s.cross.phases p = .holding)
    (hup : stage.up = true → (s.stages p).up = true)
    (hlocked : stage.locked = true → (s.stages p).locked = true)
    (hwrote : stage ≠ .unborn ∧ stage ≠ .writing) (hsees : s.Sees home p stage)
    (hchild : ∀ d, (s.stages p).child = some d → (s.stages d).up = true →
      stage.child = some d ∨ s.Enlisted home d) : (s.goto p stage).Inv home :=
  h.move rfl h.cross (fun _ _ => rfl) hholds hup hwrote hsees
    (fun key q hl => ⟨(h.lock_was key q hl).1, (h.lock_was key q hl).2.goto hwrote⟩) h.names
    (fun d hd => h.locked d (locked_of_goto hlocked hd)) (fun _ _ => id)
    fun d hc hd => hchild d hc (up_of_goto hup hd)

/-- A proxy goes on in its search. -/
theorem Inv.gotoProxy (h : s.Inv home)
    (hholds : stage.holdsCross = true → (s.stages p).holdsCross = true) (hup : stage.up = false)
    (hwrote : stage ≠ .unborn ∧ stage ≠ .writing) (hsees : s.Sees home p stage)
    (hchild : (s.stages p).child = none) : (s.goto p stage).Inv home := by
  refine h.goto (fun hs => h.holds p (hholds hs)) (fun hu => ?_) (fun hl => ?_) hwrote hsees
    fun d hc => ?_
  · rw [hup] at hu
    cases hu
  · rw [Stage.up_of_locked hl] at hup
    cases hup
  · rw [hchild] at hc
    cases hc

/-- A proxy goes on looking for daemons. Only with the startup locks it has to know something. -/
theorem Inv.look (h : s.Inv home)
    (hfrom : (s.stages p).context = some context) (hto : stage.context = some context)
    (hsees : context = .holding → s.Sees home p stage) : (s.goto p stage).Inv home := by
  refine h.gotoProxy (fun hholds => ?_) (Stage.up_of_context hto) (Stage.wrote_of_context hto) ?_
    (Stage.child_of_context hfrom)
  · rw [Stage.holdsCross_of_context hto] at hholds
    rwa [Stage.holdsCross_of_context hfrom]
  · by_cases hcontext : context = .holding
    · exact hsees hcontext
    · exact sees_of_context hto hcontext

variable {key : ρ × Root} {root : Root}

variable {owner : Option ℕ}

theorem setLock_self [DecidableEq ρ] : (s.setLock key owner).lock key = owner :=
  Function.update_self ..

theorem setLock_other [DecidableEq ρ] {key' : ρ × Root} (h : key' ≠ key) :
    (s.setLock key owner).lock key' = s.lock key' := Function.update_of_ne h ..

variable {entry : Option (ℕ × (ρ × Root))}

theorem setEntry_self :
    (s.setEntry root entry).registry root = entry := Function.update_self ..

theorem setEntry_other {root' : Root} (h : root' ≠ root) :
    (s.setEntry root entry).registry root' = s.registry root' := Function.update_of_ne h ..

/-- A lock is unlinked that is not that of another daemon at work. -/
theorem Inv.unlinkLock [DecidableEq ρ] (h : s.Inv home)
    (hkey : ∀ d, d ≠ p → (s.stages d).up = true → s.lock key ≠ some d)
    (hholds : stage.holdsCross = true → (s.stages p).holdsCross = true) (hup : stage.up = false)
    (hwrote : stage ≠ .unborn ∧ stage ≠ .writing) (hsees : s.Sees home p stage)
    (hchild : (s.stages p).child = none) : ((s.setLock key none).goto p stage).Inv home := by
  have hne : ∀ {d}, ((s.goto p stage).stages d).up = true → s.lock (home d) = some d →
      home d ≠ key := by
    rintro d hd hl rfl
    by_cases hdp : d = p
    · subst hdp
      rw [goto_self, hup] at hd
      cases hd
    · rw [goto_other hdp] at hd
      exact hkey d hdp hd hl
  refine h.move rfl h.cross (fun _ _ => rfl) (fun hs => h.holds p (hholds hs)) (fun hu => ?_)
    hwrote hsees (fun key' q hl => ?_) (fun root hr => List.mem_cons_of_mem _ (h.names root hr))
    (fun d hd => ?_) (fun d hd hen => ?_) fun d hc => ?_
  · rw [hup] at hu
    cases hu
  · have hl' : (s.setLock key none).lock key' = some q := hl
    by_cases hkey' : key' = key
    · rw [hkey', setLock_self] at hl'
      cases hl'
    · rw [setLock_other hkey'] at hl'
      exact ⟨(h.lock_was key' q hl').1, (h.lock_was key' q hl').2.goto hwrote⟩
  · have hl := h.locked d (locked_of_goto (fun hs => by
      rw [Stage.up_of_locked hs] at hup
      cases hup) hd)
    exact (setLock_other (hne (Stage.up_of_locked hd) hl)).trans hl
  · exact ⟨(setLock_other (hne hd hen.1)).trans hen.1, hen.2⟩
  · rw [hchild] at hc
    cases hc

/-- An entry is unlinked that is not that of another daemon at work. -/
theorem Inv.unlinkEntry (h : s.Inv home)
    (hroot : ∀ d, d ≠ p → (s.stages d).up = true → s.registry root ≠ some (d, home d))
    (hholds : stage.holdsCross = true → (s.stages p).holdsCross = true) (hup : stage.up = false)
    (hwrote : stage ≠ .unborn ∧ stage ≠ .writing) (hsees : s.Sees home p stage)
    (hchild : (s.stages p).child = none) : ((s.setEntry root none).goto p stage).Inv home := by
  refine h.move rfl h.cross (fun _ _ => rfl) (fun hs => h.holds p (hholds hs)) (fun hu => ?_)
    hwrote hsees (fun key q hl => ?_) (fun root' hr => ?_) (fun d hd => ?_) (fun d hd hen => ?_)
    fun d hc => ?_
  · rw [hup] at hu
    cases hu
  · exact ⟨(h.lock_was key q hl).1, (h.lock_was key q hl).2.goto hwrote⟩
  · have hr' : ((s.setEntry root none).registry root').isSome = true := hr
    by_cases hroot' : root' = root
    · rw [hroot', setEntry_self] at hr'
      cases hr'
    · rw [setEntry_other hroot'] at hr'
      exact List.mem_cons_of_mem _ (h.names root' hr')
  · exact h.locked d (locked_of_goto (fun hs => by
      rw [Stage.up_of_locked hs] at hup
      cases hup) hd)
  · refine ⟨hen.1, (setEntry_other fun hrd => ?_).trans hen.2⟩
    by_cases hdp : d = p
    · subst hdp
      have hd' : ((s.goto d stage).stages d).up = true := hd
      rw [goto_self, hup] at hd'
      cases hd'
    · have hd' : ((s.goto p stage).stages d).up = true := hd
      rw [goto_other hdp] at hd'
      exact hroot d hdp hd' (hrd ▸ hen.2)
  · rw [hchild] at hc
    cases hc

/-- A daemon writes its lock. -/
theorem Inv.writeLock [DecidableEq ρ] (h : s.Inv home) (hp : s.stages p = .writing) :
    ((s.setLock (home p) (some p)).goto p .checking).Inv home := by
  have hup : (s.stages p).up = true := by rw [hp]; rfl
  have hother : ∀ {d}, d ≠ p → ((s.goto p .checking).stages d).up = true → home d ≠ home p := by
    intro d hdp hd hkey
    rw [goto_other hdp] at hd
    exact hdp (h.disjoint d p hd hup (hkey ▸ rootsOverlap_self _))
  have hwrote : (Stage.checking : Stage ρ) ≠ .unborn ∧ (Stage.checking : Stage ρ) ≠ .writing :=
    ⟨nofun, nofun⟩
  refine h.move rfl h.cross (fun _ _ => rfl) nofun (fun _ => hup) hwrote trivial
    (fun key q hl => ?_) (fun root hr => List.mem_cons_of_mem _ (h.names root hr))
    (fun d hd => ?_) (fun d hd hen => ⟨?_, hen.2⟩) fun d hc => ?_
  · have hl' : (s.setLock (home p) (some p)).lock key = some q := hl
    by_cases hkey : key = home p
    · rw [hkey, setLock_self] at hl'
      obtain rfl := Option.some.inj hl'
      refine ⟨hkey.symm, ?_⟩
      have hself : ((s.setLock (home p) (some p)).goto p .checking).stages p = .checking :=
        goto_self
      unfold Wrote
      rwa [hself]
    · rw [setLock_other hkey] at hl'
      exact ⟨(h.lock_was key q hl').1, (h.lock_was key q hl').2.goto hwrote⟩
  · by_cases hdp : d = p
    · rw [hdp]
      exact setLock_self
    · have hd' : ((s.goto p .checking).stages d).locked = true := hd
      have hne := hother hdp (Stage.up_of_locked hd')
      rw [goto_other hdp] at hd'
      exact (setLock_other hne).trans (h.locked d hd')
  · by_cases hdp : d = p
    · rw [hdp]
      exact setLock_self
    · exact (setLock_other (hother hdp hd)).trans hen.1
  · rw [hp] at hc
    cases hc

/-- An entry is written for a daemon, which is the only one of its root that may be at work. -/
theorem Inv.writeEntry (h : s.Inv home)
    (hother : ∀ e, (s.stages e).up = true → (home e).2 = (home d).2 → e = d)
    (hholds : stage.holdsCross = true → (s.stages p).holdsCross = true)
    (hup : stage.up = true → (s.stages p).up = true)
    (hlocked : stage.locked = true → (s.stages p).locked = true)
    (hwrote : stage ≠ .unborn ∧ stage ≠ .writing) (hsees : s.Sees home p stage)
    (hchild : ∀ c, (s.stages p).child = some c → c = d ∧ s.Wrote d) :
    ((s.setEntry (home d).2 (some (d, home d))).goto p stage).Inv home := by
  refine h.move rfl h.cross (fun _ _ => rfl) (fun hs => h.holds p (hholds hs)) hup hwrote hsees
    (fun key q hl => ?_) (fun root hr => ?_) (fun e he => ?_) (fun e he hen => ⟨hen.1, ?_⟩)
    fun c hc hd => ?_
  · exact ⟨(h.lock_was key q hl).1, (h.lock_was key q hl).2.goto hwrote⟩
  · have hr' : ((s.setEntry (home d).2 (some (d, home d))).registry root).isSome = true := hr
    by_cases hroot : root = (home d).2
    · rw [hroot]
      exact List.mem_cons_self
    · rw [setEntry_other hroot] at hr'
      exact List.mem_cons_of_mem _ (h.names root hr')
  · exact h.locked e (locked_of_goto hlocked he)
  · show (s.setEntry (home d).2 (some (d, home d))).registry (home e).2 = some (e, home e)
    by_cases hroot : (home e).2 = (home d).2
    · obtain rfl := hother e (up_of_goto hup he) hroot
      exact setEntry_self
    · exact (setEntry_other hroot).trans hen.2
  · obtain ⟨rfl, hw⟩ := hchild c hc
    have hd' := up_of_goto hup hd
    have hl : (s.stages c).locked = true := by
      cases hstage : s.stages c <;> rw [hstage] at hd' <;>
        first | rfl | exact absurd hstage hw.2 | cases hd'
    exact Or.inr ⟨h.locked c hl, setEntry_self⟩

variable {act : PidLock.Act}

theorem pidLock_step_other {l l' : PidLock.State}
    (hs : PidLock.step l (p, act) = some l') (hq : q ≠ p) : l'.phases q = l.phases q := by
  have hgoto : ∀ {u : PidLock.State} {phase}, u.phases = l.phases →
      (u.goto p phase).phases q = l.phases q := fun hu =>
    (PidLock.State.goto_other hq).trans (congrFun hu q)
  have hretry : ∀ {u : PidLock.State} {attempt}, u.phases = l.phases →
      (u.retry p attempt).phases q = l.phases q := by
    intro u attempt hu
    unfold PidLock.State.retry
    split <;> exact hgoto hu
  cases act with
  | acquire =>
    obtain ⟨-, ⟨⟩⟩ := Option.ite_none_right_eq_some.1 hs
    exact hgoto rfl
  | release =>
    obtain ⟨-, ⟨⟩⟩ := Option.ite_none_right_eq_some.1 hs
    exact hgoto rfl
  | kill =>
    obtain ⟨-, ⟨⟩⟩ := Option.ite_none_left_eq_some.1 hs
    exact hgoto rfl
  | run =>
    simp only [PidLock.step, PidLock.State.advance] at hs
    repeat' split at hs
    all_goals obtain ⟨⟩ := hs
    all_goals first | exact hgoto rfl | exact hretry rfl

/-- An operation on a startup lock changes no file and no stage. -/
structure SameFiles (s t : State ρ) : Prop where
  lock : t.lock = s.lock
  registry : t.registry = s.registry
  roots : t.roots = s.roots
  stages : t.stages = s.stages

variable {name : Name}

/-- An operation on a startup lock. -/
theorem Inv.onLock [DecidableEq ρ] (h : s.Inv home)
    (hok : name = .cross → PidLock.Orderly s.cross (p, act))
    (hs : s.onLock key name (p, act) = some t) :
    s.SameFiles t ∧ t.cross.Inv ∧ (∀ q, q ≠ p → t.cross.phases q = s.cross.phases q) ∧
      (name ≠ .cross → t.cross = s.cross) := by
  obtain ⟨l, hl, rfl⟩ := Option.map_eq_some_iff.1 hs
  cases name with
  | cross =>
    exact ⟨⟨rfl, rfl, rfl, rfl⟩, h.cross.step (hok rfl) hl, fun q hq => pidLock_step_other hl hq,
      fun hne => absurd rfl hne⟩
  | global => exact ⟨⟨rfl, rfl, rfl, rfl⟩, h.cross, fun _ _ => rfl, fun _ => rfl⟩
  | starter => exact ⟨⟨rfl, rfl, rfl, rfl⟩, h.cross, fun _ _ => rfl, fun _ => rfl⟩

/-- A proxy operates on a startup lock and goes to another stage, or stays in its own. -/
theorem Inv.moveLock [DecidableEq ρ] (h : s.Inv home)
    (hok : name = .cross → PidLock.Orderly s.cross (p, act))
    (hs : s.onLock key name (p, act) = some t)
    (hholds : stage.holdsCross = true → name ≠ .cross ∧ (s.stages p).holdsCross = true)
    (hup : stage.up = false) (hwrote : stage ≠ .unborn ∧ stage ≠ .writing)
    (hsees : s.Sees home p stage) (hchild : (s.stages p).child = none) :
    (t.goto p stage).Inv home := by
  obtain ⟨⟨hlock, hregistry, hroots, hstages⟩, hcross, hphases, hsame⟩ := h.onLock hok hs
  have hgoto : (t.goto p stage).stages = (s.goto p stage).stages := by
    unfold State.goto
    rw [hstages]
  refine h.move hgoto hcross hphases (fun hst => ?_) (fun hu => ?_) hwrote hsees
    (fun key q hl => ?_) (fun root hr => ?_) (fun d hd => ?_) (fun d _ hen => ?_) fun d hc => ?_
  · obtain ⟨hne, hp⟩ := hholds hst
    exact (congrArg (fun l => l.phases p) (hsame hne)).trans (h.holds p hp)
  · rw [hup] at hu
    cases hu
  · have hl' : t.lock key = some q := hl
    rw [hlock] at hl'
    refine ⟨(h.lock_was key q hl').1, ?_⟩
    have hw := (h.lock_was key q hl').2.goto (p := p) hwrote
    unfold Wrote at hw ⊢
    rwa [hgoto]
  · show root ∈ t.roots
    have hr' : (t.registry root).isSome = true := hr
    rw [hregistry] at hr'
    exact hroots ▸ h.names root hr'
  · show t.lock (home d) = some d
    rw [hgoto] at hd
    exact hlock ▸ h.locked d (locked_of_goto (fun hs => by
      rw [Stage.up_of_locked hs] at hup
      cases hup) hd)
  · exact ⟨(congrFun hlock (home d)).trans hen.1, (congrFun hregistry (home d).2).trans hen.2⟩
  · rw [hchild] at hc
    cases hc

/-- A proxy operates on a startup lock and stays in its stage. -/
theorem Inv.stayLock [DecidableEq ρ] (h : s.Inv home)
    (hok : name = .cross → PidLock.Orderly s.cross (p, act))
    (hs : s.onLock key name (p, act) = some t) (hstage : s.stages p = stage)
    (hup : stage.up = false) (hwrote : stage ≠ .unborn ∧ stage ≠ .writing)
    (hholds : stage.holdsCross = true → name ≠ .cross) (hchild : (s.stages p).child = none) :
    t.Inv home := by
  have hsame : t.stages = s.stages := (h.onLock hok hs).1.stages
  have hgoto : t.goto p stage = t := by
    unfold State.goto
    rw [hsame, ← hstage, Function.update_eq_self, ← hsame]
  rw [← hgoto]
  exact h.moveLock hok hs (fun hst => ⟨hholds hst, hstage ▸ hst⟩) hup hwrote (hstage ▸ h.sees p)
    hchild

variable {l : PidLock.State}

theorem orderly_acquire : PidLock.Orderly l (p, .acquire) := trivial

theorem orderly_release : PidLock.Orderly l (p, .release) := trivial

theorem ne_of_dead (hdead : s.stages q = .dead) (hd : (s.stages d).up = true) : q ≠ d := by
  rintro rfl
  rw [hdead] at hd
  cases hd

theorem forall_of_lockStale (hstale : s.lockStale key = true) :
    ∀ d, d ≠ p → (s.stages d).up = true → s.lock key ≠ some d := by
  intro d _ hd hl
  rw [lockStale, hl, Option.all_some, hd] at hstale
  cases hstale

theorem forall_of_entryStale (hstale : s.entryStale root = true) :
    ∀ d, d ≠ p → (s.stages d).up = true → s.registry root ≠ some (d, home d) := by
  intro d _ hd hr
  rw [entryStale, hr, Option.all_some, hd] at hstale
  cases hstale

theorem sees_notReused (h : context = .holding → ∀ d, (s.stages d).up = true → home d ≠ home p) :
    s.Sees home p (notReused context) := by
  cases context with
  | holding => exact h rfl
  | _ => trivial

theorem sees_leave : s.Sees home p (leave context) := by
  cases context <;> trivial

theorem sees_noConflict (h : context = .holding →
      ∀ d, (s.stages d).up = true → rootsOverlap (home p).2 (home d).2 = false) :
    s.Sees home p (noConflict context) := by
  cases context with
  | holding => exact h rfl
  | _ => trivial

theorem up_leave (context : Context) : (leave context : Stage ρ).up = false := by
  cases context <;> rfl

theorem up_notReused (context : Context) : (notReused context : Stage ρ).up = false := by
  cases context <;> rfl

theorem up_noConflict (context : Context) : (noConflict context : Stage ρ).up = false := by
  cases context <;> rfl

theorem wrote_leave (context : Context) :
    (leave context : Stage ρ) ≠ .unborn ∧ (leave context : Stage ρ) ≠ .writing := by
  cases context <;> exact ⟨nofun, nofun⟩

theorem wrote_notReused (context : Context) :
    (notReused context : Stage ρ) ≠ .unborn ∧ (notReused context : Stage ρ) ≠ .writing := by
  cases context <;> exact ⟨nofun, nofun⟩

theorem wrote_noConflict (context : Context) :
    (noConflict context : Stage ρ) ≠ .unborn ∧ (noConflict context : Stage ρ) ≠ .writing := by
  cases context <;> exact ⟨nofun, nofun⟩

/-- A call of a proxy that has started no daemon ends. -/
theorem Inv.leave (h : s.Inv home)
    (hholds : context.holdsCross = true → (s.stages p).holdsCross = true)
    (hchild : (s.stages p).child = none) :
    (s.goto p (DaemonStartup.leave context)).Inv home :=
  h.gotoProxy (fun hs => hholds (holdsCross_leave context hs)) (up_leave context)
    (wrote_leave context) sees_leave hchild

variable {child : ℕ}

/-- A proxy that has started a daemon has done with it. -/
theorem Inv.doneWith (h : s.Inv home) (hp : (s.stages p).child = some child)
    (hdone : s.stages child = .dead) : (s.goto p (.releasing .starter false)).Inv home := by
  refine h.goto (fun _ => h.holds p (Stage.holdsCross_of_child hp)) nofun nofun ⟨nofun, nofun⟩
    trivial fun d hc hd => ?_
  rw [hp] at hc
  obtain rfl := Option.some.inj hc
  rw [hdone] at hd
  cases hd

/-- A proxy stays with the daemon that it has started. -/
theorem Inv.stayWith (h : s.Inv home) (hp : (s.stages p).child = some child)
    (hstage : stage.child = some child) (hsees : s.Sees home p stage) :
    (s.goto p stage).Inv home := by
  have hup : stage.up = false := by
    by_contra hne
    rw [Stage.child_of_up (eq_true_of_ne_false hne)] at hstage
    cases hstage
  refine h.goto (fun _ => h.holds p (Stage.holdsCross_of_child hp)) (fun hu => ?_) (fun hl => ?_)
    ⟨?_, ?_⟩ hsees fun d hc _ => Or.inl (by rw [hstage, ← hp, hc])
  · rw [hup] at hu
    cases hu
  · rw [Stage.up_of_locked hl] at hup
    cases hup
  · rintro rfl
    cases hstage
  · rintro rfl
    cases hstage

/-- A proxy starts to acquire a startup lock. -/
theorem Inv.requesting [DecidableEq ρ] (h : s.Inv home) (hstage : s.stages p = .requesting name)
    (hs : s.advance home p = some t) : t.Inv home := by
  have hsees := h.sees p
  unfold State.advance at hs
  rw [hstage] at hsees
  simp only [hstage] at hs
  obtain ⟨u, hu, rfl⟩ := Option.map_eq_some_iff.1 hs
  refine h.moveLock (fun _ => orderly_acquire) hu ?_ rfl
    ⟨nofun, nofun⟩ ?_ (by rw [hstage]; rfl)
  · rw [hstage]
    cases name with
    | cross => exact nofun
    | _ => exact fun _ => ⟨nofun, rfl⟩
  · cases name <;> trivial

/-- `_acquire_pid_lock` goes on or has returned. -/
theorem Inv.acquiring [DecidableEq ρ] (h : s.Inv home)
    (hstage : s.stages p = .acquiring name) (hok : Careful home s (p, .run))
    (hs : s.advance home p = some t) : t.Inv home := by
  have hsees := h.sees p
  unfold Careful at hok
  unfold State.advance at hs
  have hchild : (s.stages p).child = none := by rw [hstage]; rfl
  rw [hstage] at hsees
  simp only [hstage] at hs
  split at hs
  · rename_i hholding
    obtain ⟨⟩ := hs
    cases name with
    | cross =>
      refine h.goto (fun _ => hholding) nofun nofun ⟨nofun, nofun⟩ trivial fun d hc => ?_
      rw [hchild] at hc
      cases hc
    | global =>
      exact h.gotoProxy (fun _ => by rw [hstage]; rfl) rfl ⟨nofun, nofun⟩ trivial hchild
    | starter =>
      exact h.gotoProxy (fun _ => by rw [hstage]; rfl) rfl ⟨nofun, nofun⟩ hsees hchild
  · obtain ⟨⟩ := hs
    cases name with
    | cross => exact h.gotoProxy nofun rfl ⟨nofun, nofun⟩ trivial hchild
    | global =>
      exact h.gotoProxy (fun _ => by rw [hstage]; rfl) rfl ⟨nofun, nofun⟩ trivial hchild
    | starter =>
      exact h.gotoProxy (fun _ => by rw [hstage]; rfl) rfl ⟨nofun, nofun⟩ trivial hchild
  · refine h.stayLock (fun hname => ?_) hs hstage rfl ⟨nofun, nofun⟩ ?_ hchild
    · subst hname
      simpa only [hstage] using hok
    · cases name with
      | cross => exact nofun
      | _ => exact fun _ => nofun

/-- `_release_pid_lock` goes on or has returned. -/
theorem Inv.freeing [DecidableEq ρ] (h : s.Inv home) {again : Bool}
    (hstage : s.stages p = .freeing name again) (hok : Careful home s (p, .run))
    (hs : s.advance home p = some t) : t.Inv home := by
  unfold Careful at hok
  unfold State.advance at hs
  have hchild : (s.stages p).child = none := by rw [hstage]; rfl
  simp only [hstage] at hs
  split at hs
  · obtain ⟨⟩ := hs
    cases name with
    | cross =>
      cases again <;> exact h.gotoProxy nofun rfl ⟨nofun, nofun⟩ trivial hchild
    | global =>
      exact h.gotoProxy (fun _ => by rw [hstage]; rfl) rfl ⟨nofun, nofun⟩ trivial hchild
    | starter =>
      exact h.gotoProxy (fun _ => by rw [hstage]; rfl) rfl ⟨nofun, nofun⟩ trivial hchild
  · refine h.stayLock (fun hname => ?_) hs hstage rfl ⟨nofun, nofun⟩ ?_ hchild
    · subst hname
      simpa only [hstage] using hok
    · cases name with
      | cross => exact nofun
      | _ => exact fun _ => nofun

/-- With the startup locks, a daemon of the same key is the one that the lock names. -/
theorem Inv.reading [DecidableEq ρ] (h : s.Inv home) (hstage : s.stages p = .reading context)
    (hs : s.advance home p = some t) : t.Inv home := by
  unfold State.advance at hs
  have hfrom : (s.stages p).context = some context := by rw [hstage]; rfl
  simp only [hstage] at hs
  cases hl : s.lock (home p) with
  | none =>
    simp only [hl, Option.some.injEq] at hs
    subst hs
    refine h.gotoProxy
      (fun hn => (Stage.holdsCross_of_context hfrom).trans (holdsCross_notReused context hn))
      (up_notReused context) (wrote_notReused context) (sees_notReused ?_)
      (Stage.child_of_context hfrom)
    intro hc d hd hkey
    have hen := h.enlisted_of_look (hc ▸ hfrom) hd
    cases hl.symm.trans (hkey ▸ hen.1)
  | some pid =>
    simp only [hl, Option.some.injEq] at hs
    subst hs
    refine h.look hfrom rfl ?_
    rintro rfl d hd hkey
    have hen := h.enlisted_of_look hfrom hd
    exact Option.some.inj (hl.symm.trans (hkey ▸ hen.1))

variable {pid : ℕ}

theorem Inv.judging [DecidableEq ρ] (h : s.Inv home) (hstage : s.stages p = .judging context pid)
    (hs : s.advance home p = some t) : t.Inv home := by
  have hsees := h.sees p
  unfold State.advance at hs
  have hfrom : (s.stages p).context = some context := by rw [hstage]; rfl
  rw [hstage] at hsees
  simp only [hstage] at hs
  split at hs <;> obtain ⟨⟩ := hs
  · rename_i hdead
    refine h.look hfrom rfl ?_
    rintro rfl d hd hkey
    exact ne_of_dead hdead hd (hsees d hd hkey)
  · exact h.leave (Stage.holdsCross_of_context hfrom).trans (Stage.child_of_context hfrom)

theorem Inv.unlinking [DecidableEq ρ] (h : s.Inv home)
    (hstage : s.stages p = .unlinking context) (hok : Careful home s (p, .run))
    (hs : s.advance home p = some t) : t.Inv home := by
  have hsees := h.sees p
  unfold Careful at hok
  unfold State.advance at hs
  have hfrom : (s.stages p).context = some context := by rw [hstage]; rfl
  rw [hstage] at hsees
  simp only [hstage, Option.some.injEq] at hs hok
  subst hs
  refine h.unlinkLock (forall_of_lockStale hok)
    (fun hn => (Stage.holdsCross_of_context hfrom).trans (holdsCross_notReused context hn))
    (up_notReused context) (wrote_notReused context) (sees_notReused ?_)
    (Stage.child_of_context hfrom)
  rintro rfl
  exact hsees

variable {todo : List Root}

/-- The pass over the registry starts with the roots of all daemons at work. -/
theorem Inv.lockPass [DecidableEq ρ] (h : s.Inv home) (hstage : s.stages p = .lockPass context todo)
    (hs : s.advance home p = some t) : t.Inv home := by
  have hsees := h.sees p
  unfold State.advance at hs
  have hfrom : (s.stages p).context = some context := by rw [hstage]; rfl
  rw [hstage] at hsees
  cases todo with
  | nil =>
    simp only [hstage, Option.some.injEq] at hs
    subst hs
    refine h.look hfrom rfl ?_
    rintro rfl d hd -
    have hen := h.enlisted_of_look hfrom hd
    have hsome : (s.registry (home d).2).isSome = true := by rw [hen.2]; rfl
    exact ⟨hsees d hd, List.mem_filter.2 ⟨h.names _ hsome, hsome⟩⟩
  | cons root todo =>
    simp only [hstage] at hs
    split at hs <;> obtain ⟨⟩ := hs <;>
    · refine h.look hfrom rfl ?_
      rintro rfl
      exact hsees

theorem Inv.lockJudging [DecidableEq ρ] (h : s.Inv home) {root : Root}
    (hstage : s.stages p = .lockJudging context todo root pid)
    (hs : s.advance home p = some t) : t.Inv home := by
  have hsees := h.sees p
  unfold State.advance at hs
  have hfrom : (s.stages p).context = some context := by rw [hstage]; rfl
  rw [hstage] at hsees
  simp only [hstage] at hs
  split at hs
  · obtain ⟨⟩ := hs
    refine h.look hfrom rfl ?_
    rintro rfl
    exact hsees
  · split at hs <;> obtain ⟨⟩ := hs
    · exact h.leave (Stage.holdsCross_of_context hfrom).trans (Stage.child_of_context hfrom)
    · refine h.look hfrom rfl ?_
      rintro rfl
      exact hsees

/-- A daemon in the way is the one of this entry, or of one that is still to read. -/
theorem Inv.entryPass [DecidableEq ρ] (h : s.Inv home)
    (hstage : s.stages p = .entryPass context todo)
    (hs : s.advance home p = some t) : t.Inv home := by
  have hsees := h.sees p
  unfold State.advance at hs
  have hfrom : (s.stages p).context = some context := by rw [hstage]; rfl
  rw [hstage] at hsees
  cases todo with
  | nil =>
    simp only [hstage, Option.some.injEq] at hs
    subst hs
    refine h.gotoProxy
      (fun hn => (Stage.holdsCross_of_context hfrom).trans (holdsCross_noConflict context hn))
      (up_noConflict context) (wrote_noConflict context) (sees_noConflict ?_)
      (Stage.child_of_context hfrom)
    rintro rfl d hd
    by_contra hne
    exact absurd (hsees d hd (eq_true_of_ne_false hne)).2 List.not_mem_nil
  | cons root todo =>
    simp only [hstage] at hs
    cases hr : s.registry root with
    | none =>
      simp only [hr, Option.some.injEq] at hs
      subst hs
      refine h.look hfrom rfl ?_
      rintro rfl d hd hover
      obtain ⟨hne, hmem⟩ := hsees d hd hover
      refine ⟨hne, (List.mem_cons.1 hmem).resolve_left fun hroot => ?_⟩
      have hen := h.enlisted_of_look hfrom hd
      cases hr.symm.trans (hroot ▸ hen.2)
    | some entry =>
      obtain ⟨pid, key⟩ := entry
      simp only [hr, Option.some.injEq] at hs
      subst hs
      refine h.look hfrom rfl ?_
      rintro rfl d hd hover
      obtain ⟨hne, hmem⟩ := hsees d hd hover
      refine ⟨hne, (List.mem_cons.1 hmem).symm.imp_right fun hroot => ?_⟩
      have hen := h.enlisted_of_look hfrom hd
      obtain ⟨⟩ := hr.symm.trans (hroot ▸ hen.2)
      exact ⟨rfl, rfl⟩

theorem Inv.entryJudging [DecidableEq ρ] (h : s.Inv home) {root : Root} {key : ρ × Root}
    (hstage : s.stages p = .entryJudging context todo root pid key)
    (hs : s.advance home p = some t) : t.Inv home := by
  have hsees := h.sees p
  unfold State.advance at hs
  have hfrom : (s.stages p).context = some context := by rw [hstage]; rfl
  rw [hstage] at hsees
  simp only [hstage] at hs
  split at hs <;> obtain ⟨⟩ := hs
  · rename_i hdead
    refine h.look hfrom rfl ?_
    rintro rfl d hd hover
    obtain ⟨hne, hmem⟩ := hsees d hd hover
    exact ⟨hne, hmem.resolve_right fun hpid => ne_of_dead hdead hd hpid.1⟩
  · refine h.look hfrom rfl ?_
    rintro rfl
    exact hsees

theorem Inv.entryComparing [DecidableEq ρ] (h : s.Inv home) {root : Root} {key : ρ × Root}
    (hstage : s.stages p = .entryComparing context todo root pid key)
    (hs : s.advance home p = some t) : t.Inv home := by
  have hsees := h.sees p
  unfold State.advance at hs
  have hfrom : (s.stages p).context = some context := by rw [hstage]; rfl
  rw [hstage] at hsees
  simp only [hstage] at hs
  split at hs
  · rename_i hne
    obtain ⟨⟩ := hs
    refine h.look hfrom rfl ?_
    rintro rfl d hd hover
    obtain ⟨hkey, hmem⟩ := hsees d hd hover
    refine ⟨hkey, hmem.resolve_right ?_⟩
    rintro ⟨rfl, rfl⟩
    exact hne (h.enlisted_of_look hfrom hd).1
  · split at hs <;> obtain ⟨⟩ := hs
    · exact h.leave (Stage.holdsCross_of_context hfrom).trans (Stage.child_of_context hfrom)
    · rename_i hskip
      refine h.look hfrom rfl ?_
      rintro rfl d hd hover
      obtain ⟨hkey, hmem⟩ := hsees d hd hover
      refine ⟨hkey, hmem.resolve_right ?_⟩
      rintro ⟨rfl, rfl⟩
      exact hskip ⟨hkey, hover⟩

theorem Inv.polling [DecidableEq ρ] (h : s.Inv home) (hstage : s.stages p = .polling child)
    (hs : s.advance home p = some t) : t.Inv home := by
  have hsees := h.sees p
  unfold State.advance at hs
  have hchild : (s.stages p).child = some child := by rw [hstage]; rfl
  rw [hstage] at hsees
  simp only [hstage] at hs
  split at hs
  · rename_i hdead
    obtain ⟨⟩ := hs
    exact h.doneWith hchild hdead
  · split at hs <;> obtain ⟨⟩ := hs
    · exact h
    · rename_i pid hl
      exact h.stayWith hchild rfl ⟨hsees, h.lock_was (home p) pid hl⟩

/-- The daemon that is found at work is the one that was started. -/
theorem Inv.connecting [DecidableEq ρ] (h : s.Inv home)
    (hstage : s.stages p = .connecting child pid)
    (hs : s.advance home p = some t) : t.Inv home := by
  have hsees := h.sees p
  unfold State.advance at hs
  have hchild : (s.stages p).child = some child := by rw [hstage]; rfl
  rw [hstage] at hsees
  obtain ⟨hsees, hhome, hwrote⟩ := hsees
  simp only [hstage] at hs
  split at hs
  · rename_i hup
    split at hs <;> obtain ⟨⟩ := hs
    · rename_i hdead
      exact h.doneWith hchild hdead
    · have hpid : pid = child := hsees.2 pid hup (hhome ▸ rootsOverlap_self _)
      exact h.stayWith hchild rfl ⟨hsees, hpid, hwrote⟩
  · obtain ⟨⟩ := hs
    exact h.stayWith hchild rfl hsees

theorem Inv.enlisting [DecidableEq ρ] (h : s.Inv home) (hstage : s.stages p = .enlisting child pid)
    (hs : s.advance home p = some t) : t.Inv home := by
  have hsees := h.sees p
  unfold State.advance at hs
  have hchild : (s.stages p).child = some child := by rw [hstage]; rfl
  rw [hstage] at hsees
  obtain ⟨⟨hhome, honly⟩, rfl, hwrote⟩ := hsees
  simp only [hstage, Option.some.injEq] at hs
  subst hs
  rw [← hhome]
  refine h.writeEntry (fun e he hroot => honly e he ?_) (fun _ => by rw [hstage]; rfl) nofun nofun
    ⟨nofun, nofun⟩ trivial fun c hc => ?_
  · rw [hroot, hhome]
    exact rootsOverlap_self _
  · rw [hchild] at hc
    exact ⟨(Option.some.inj hc).symm, hwrote⟩

theorem Inv.advance [DecidableEq ρ] (h : s.Inv home) (hok : Careful home s (p, .run))
    (hs : s.advance home p = some t) : t.Inv home := by
  have hsees := h.sees p
  cases hstage : s.stages p with
  | unborn => simp [State.advance, hstage] at hs
  | dead => simp [State.advance, hstage] at hs
  | serving => simp [State.advance, hstage] at hs
  | idle => simp [State.advance, hstage] at hs
  | spawning => simp [State.advance, hstage] at hs
  | writing =>
    unfold State.advance at hs
    simp only [hstage, Option.some.injEq] at hs
    subst hs
    exact h.writeLock hstage
  | checking =>
    unfold State.advance at hs
    simp only [hstage, if_pos (h.locked p (by rw [hstage]; rfl)), Option.some.injEq] at hs
    subst hs
    refine h.goto nofun (fun _ => by rw [hstage]; rfl) (fun _ => by rw [hstage]; rfl)
      ⟨nofun, nofun⟩ trivial fun d hc => ?_
    rw [hstage] at hc
    cases hc
  | registering =>
    have hup : (s.stages p).up = true := by rw [hstage]; rfl
    unfold State.advance at hs
    simp only [hstage, Option.some.injEq] at hs
    subst hs
    refine h.writeEntry (fun e he hroot => ?_) nofun (fun _ => hup) (fun _ => by rw [hstage]; rfl)
      ⟨nofun, nofun⟩ trivial fun c hc => ?_
    · exact h.disjoint e p he hup (hroot ▸ rootsOverlap_self _)
    · rw [hstage] at hc
      cases hc
  | removingLock =>
    unfold State.advance at hs
    simp only [hstage, Option.some.injEq] at hs
    subst hs
    refine h.unlinkLock (fun d hdp _ hl => ?_) nofun rfl ⟨nofun, nofun⟩ trivial
      (by rw [hstage]; rfl)
    exact hdp (Option.some.inj (hl.symm.trans (h.locked p (by rw [hstage]; rfl))))
  | removingEntry =>
    unfold Careful at hok
    unfold State.advance at hs
    simp only [hstage, Option.some.injEq] at hs hok
    subst hs
    exact h.unlinkEntry (forall_of_entryStale hok) nofun rfl ⟨nofun, nofun⟩ trivial
      (by rw [hstage]; rfl)
  | requesting name => exact h.requesting hstage hs
  | acquiring name => exact h.acquiring hstage hok hs
  | releasing name again =>
    unfold State.advance at hs
    simp only [hstage] at hs
    obtain ⟨u, hu, rfl⟩ := Option.map_eq_some_iff.1 hs
    refine h.moveLock (fun _ => orderly_release) hu ?_ rfl
      ⟨nofun, nofun⟩ trivial (by rw [hstage]; rfl)
    rw [hstage]
    cases name with
    | cross => exact nofun
    | _ => exact fun _ => ⟨nofun, rfl⟩
  | freeing name again => exact h.freeing hstage hok hs
  | reading context => exact h.reading hstage hs
  | judging context pid => exact h.judging hstage hs
  | unlinking context => exact h.unlinking hstage hok hs
  | listing context =>
    rw [hstage] at hsees
    unfold State.advance at hs
    simp only [hstage, Option.some.injEq] at hs
    subst hs
    refine h.look (by rw [hstage]; rfl) rfl ?_
    rintro rfl
    exact hsees
  | lockPass context todo => exact h.lockPass hstage hs
  | lockJudging context todo root pid => exact h.lockJudging hstage hs
  | lockUnlinking context todo root =>
    rw [hstage] at hsees
    unfold Careful at hok
    unfold State.advance at hs
    simp only [hstage, Option.some.injEq] at hs hok
    subst hs
    refine h.unlinkLock (forall_of_lockStale hok) (by rw [hstage]; exact id) rfl ⟨nofun, nofun⟩ ?_
      (by rw [hstage]; rfl)
    cases context <;> trivial
  | entryPass context todo => exact h.entryPass hstage hs
  | entryJudging context todo root pid key => exact h.entryJudging hstage hs
  | entryComparing context todo root pid key => exact h.entryComparing hstage hs
  | entryUnlinking context todo root =>
    rw [hstage] at hsees
    unfold Careful at hok
    unfold State.advance at hs
    simp only [hstage, Option.some.injEq] at hs hok
    subst hs
    refine h.unlinkEntry (forall_of_entryStale hok) (by rw [hstage]; exact id) rfl ⟨nofun, nofun⟩ ?_
      (by rw [hstage]; rfl)
    cases context <;> trivial
  | ready =>
    rw [hstage] at hsees
    unfold State.advance at hs
    simp only [hstage, Option.some.injEq] at hs
    subst hs
    exact h.gotoProxy (fun _ => by rw [hstage]; rfl) rfl ⟨nofun, nofun⟩ hsees (by rw [hstage]; rfl)
  | polling child => exact h.polling hstage hs
  | connecting child pid => exact h.connecting hstage hs
  | enlisting child pid => exact h.enlisting hstage hs
  | terminating child =>
    have hchild : (s.stages p).child = some child := by rw [hstage]; rfl
    unfold State.advance at hs
    simp only [hstage] at hs
    obtain ⟨hdead, ⟨⟩⟩ := Option.ite_none_right_eq_some.1 hs
    exact h.doneWith hchild hdead

/-- A proxy with all locks starts a daemon. -/
theorem Inv.spawn (h : s.Inv home) (hp : s.stages p = .spawning)
    (hchild : s.stages child = .unborn) (hhome : home child = home p) :
    ((s.goto child .writing).goto p (.polling child)).Inv home := by
  have hne : child ≠ p := by
    rintro rfl
    cases hchild.symm.trans hp
  have hself : ((s.goto child .writing).goto p (.polling child)).stages p = .polling child :=
    goto_self
  have hnew : ((s.goto child .writing).goto p (.polling child)).stages child = .writing :=
    (goto_other hne).trans goto_self
  have hother : ∀ {q}, q ≠ p → q ≠ child →
      ((s.goto child .writing).goto p (.polling child)).stages q = s.stages q :=
    fun hqp hqc => (goto_other hqp).trans (goto_other hqc)
  have hholds : (s.stages p).holdsCross = true := by rw [hp]; rfl
  have hfree : ∀ d, (s.stages d).up = true → rootsOverlap (home p).2 (home d).2 = false := by
    have hsees := h.sees p
    rw [hp] at hsees
    exact hsees
  -- the other daemons at work were so before
  have hback : ∀ {d}, d ≠ child →
      (((s.goto child .writing).goto p (.polling child)).stages d).up = true →
      (s.stages d).up = true := by
    intro d hdc hd
    have hdp : d ≠ p := by
      rintro rfl
      rw [hself] at hd
      cases hd
    rwa [hother hdp hdc] at hd
  refine
    { cross := h.cross
      holds := fun q hq => ?_
      sees := fun q => ?_
      enlisted := fun d hd => ?_
      disjoint := fun d e hd he hover => ?_
      locked := fun d hd => ?_
      lock_was := fun key q hl => ?_
      names := h.names }
  · by_cases hqp : q = p
    · exact hqp ▸ h.holds p hholds
    · by_cases hqc : q = child
      · rw [hqc, hnew] at hq
        cases hq
      · rw [hother hqp hqc] at hq
        exact h.holds q hq
  · by_cases hqp : q = p
    · subst hqp
      rw [hself]
      refine ⟨hhome, fun d hd hover => ?_⟩
      by_contra hdc
      rw [hfree d (hback hdc hd)] at hover
      cases hover
    · by_cases hqc : q = child
      · rw [hqc, hnew]
        trivial
      · rw [hother hqp hqc]
        refine sees_of_not_holds (Bool.eq_false_iff.2 fun hq => hqp ?_)
        exact h.cross.oneHolder q p (h.holds q hq) (h.holds p hholds)
  · by_cases hdc : d = child
    · exact Or.inr ⟨p, by rw [hself, hdc]; rfl⟩
    · exact Or.inl (h.enlisted_of_holds hholds (by rw [hp]; rfl) (hback hdc hd))
  · by_cases hdc : d = child <;> by_cases hec : e = child
    · exact hdc.trans hec.symm
    · rw [hdc, hhome, hfree e (hback hec he)] at hover
      cases hover
    · rw [hec, hhome, rootsOverlap_comm, hfree d (hback hdc hd)] at hover
      cases hover
    · exact h.disjoint d e (hback hdc hd) (hback hec he) hover
  · by_cases hdp : d = p
    · rw [hdp, hself] at hd
      cases hd
    · by_cases hdc : d = child
      · rw [hdc, hnew] at hd
        cases hd
      · rw [hother hdp hdc] at hd
        exact h.locked d hd
  · obtain ⟨hkey, hw⟩ := h.lock_was key q hl
    refine ⟨hkey, ?_⟩
    have hqc : q ≠ child := by
      rintro rfl
      exact hw.1 hchild
    unfold Wrote
    by_cases hqp : q = p
    · rw [hqp, hself]
      exact ⟨nofun, nofun⟩
    · rw [hother hqp hqc]
      exact hw

theorem Inv.giveUp (h : s.Inv home) (hs : s.giveUp p = some t) : t.Inv home := by
  have hsees := h.sees p
  unfold State.giveUp at hs
  split at hs <;> rename_i hstage <;> obtain ⟨⟩ := hs <;> rw [hstage] at hsees
  · exact h.leave (by rw [hstage]; exact id) (by rw [hstage]; rfl)
  · exact h.leave (fun _ => by rw [hstage]; rfl) (by rw [hstage]; rfl)
  · exact h.stayWith (by rw [hstage]; rfl) rfl hsees
  · exact h.stayWith (by rw [hstage]; rfl) rfl hsees.1

/-- A process that is killed has not started a daemon that is not yet found. -/
theorem Inv.kill (h : s.Inv home) (hok : Careful home s (p, .kill)) :
    (s.killed p).Inv home := by
  obtain ⟨horderly, hchild⟩ := hok
  have hcross : (s.cross.goto p .dead).Inv := by
    by_cases hdead : s.cross.phases p = .dead
    · have hsame : s.cross.goto p .dead = s.cross := by
        unfold PidLock.State.goto
        rw [← hdead, Function.update_eq_self]
      rw [hsame]
      exact h.cross
    · exact h.cross.step horderly (if_neg hdead)
  have hwrote : (Stage.dead : Stage ρ) ≠ .unborn ∧ (Stage.dead : Stage ρ) ≠ .writing :=
    ⟨nofun, nofun⟩
  have hup : (Stage.dead : Stage ρ).up = true → (s.stages p).up = true := nofun
  have hlocked : (Stage.dead : Stage ρ).locked = true → (s.stages p).locked = true := nofun
  exact h.move rfl hcross (fun q hq => PidLock.State.goto_other hq) nofun hup hwrote trivial
    (fun key q hl => ⟨(h.lock_was key q hl).1, (h.lock_was key q hl).2.goto hwrote⟩) h.names
    (fun d hd => h.locked d (locked_of_goto hlocked hd)) (fun d _ hen => hen)
    fun d hc hd => Or.inr (hchild d hc (up_of_goto hup hd))

theorem Inv.step [DecidableEq ρ] (h : s.Inv home) {a : ℕ × Act} (hok : Careful home s a)
    (hs : DaemonStartup.step home s a = some t) : t.Inv home := by
  obtain ⟨p, act⟩ := a
  cases act with
  | startProxy =>
    obtain ⟨hunborn, ⟨⟩⟩ := Option.ite_none_right_eq_some.1 hs
    have hunborn : s.stages p = .unborn := hunborn
    exact h.gotoProxy nofun rfl ⟨nofun, nofun⟩ trivial (by rw [hunborn]; rfl)
  | call =>
    obtain ⟨hidle, ⟨⟩⟩ := Option.ite_none_right_eq_some.1 hs
    have hidle : s.stages p = .idle := hidle
    exact h.gotoProxy nofun rfl ⟨nofun, nofun⟩ trivial (by rw [hidle]; rfl)
  | run => exact h.advance hok hs
  | spawn child =>
    obtain ⟨⟨hp, hchild, hhome⟩, ⟨⟩⟩ := Option.ite_none_right_eq_some.1 hs
    exact h.spawn hp hchild hhome
  | giveUp => exact h.giveUp hs
  | shutdown =>
    obtain ⟨hserving, ⟨⟩⟩ := Option.ite_none_right_eq_some.1 hs
    have hserving : s.stages p = .serving := hserving
    refine h.goto nofun (fun _ => by rw [hserving]; rfl) (fun _ => by rw [hserving]; rfl)
      ⟨nofun, nofun⟩ trivial fun d hc => ?_
    rw [hserving] at hc
    cases hc
  | kill =>
    obtain ⟨-, ⟨⟩⟩ := Option.ite_none_left_eq_some.1 hs
    exact h.kill hok

end State

/-! ## Results -/

/-- In runs with care no two daemons of overlapping roots are live and published. -/
theorem oneDaemon_of_careful [DecidableEq ρ] {home : ℕ → ρ × Root} {s : State ρ}
    (h : ReachWhen (step home) (Careful home) start s) : OneDaemon home s :=
  (h.invariant State.inv_start fun _ _ _ hi hok hs => hi.step hok hs).oneDaemon

/-- Two processes of a root, the others of one below it. -/
def nested (p : ℕ) : ℕ × Root := (0, if p < 2 then ["a"] else ["a", "b"])

/-- A proxy comes to have all locks, and starts a daemon. -/
def starting : List (ℕ × Act) :=
  (0, .startProxy) :: (0, .call) :: List.replicate 18 (0, .run) ++ [(0, .spawn 1)]

/-- The daemon publishes, and the proxy enters it and releases the locks. Another proxy takes them,
and finds the daemon in its way. -/
def started : List (ℕ × Act) :=
  starting ++ List.replicate 3 (1, .run) ++ List.replicate 18 (0, .run) ++
    (2, .startProxy) :: (2, .call) :: List.replicate 13 (2, .run)

theorem oneDaemon_nested : ∃ s, execute (guarded (step nested) (Careful nested)) start started =
      some s ∧ (s.stages 1).published = true ∧ s.stages 2 = .releasing .global false ∧
    OneDaemon nested s := by
  have hsome : ((execute (guarded (step nested) (Careful nested)) start started).any fun s =>
      (s.stages 1).published = true ∧ s.stages 2 = .releasing .global false) = true := by
    decide +kernel
  obtain ⟨s, hs, hall⟩ := (Option.any_eq_true _ _).1 hsome
  obtain ⟨hpublished, hleft⟩ := of_decide_eq_true hall
  exact ⟨s, hs, hpublished, hleft, oneDaemon_of_careful (.of_guarded (.of_execute _ hs))⟩

/-- A proxy is killed after it started a daemon. Another takes its locks over, and starts one for a
root below, before the first is published. -/
theorem killed_starter_two_daemons : ∃ s, Reach (step nested) start s ∧ ¬ OneDaemon nested s := by
  have hsome : ((execute (step nested) start
      (starting ++ ((0, .kill) :: (2, .startProxy) :: (2, .call) ::
        (List.replicate 28 (2, .run)).append [(2, .spawn 3), (3, .run), (3, .run), (1, .run),
          (1, .run)] : List (ℕ × Act)))).any fun s =>
          (s.stages 1).published = true ∧ (s.stages 3).published = true) = true := by
    decide +kernel
  obtain ⟨s, hs, hall⟩ := (Option.any_eq_true _ _).1 hsome
  obtain ⟨hone, hthree⟩ := of_decide_eq_true hall
  exact ⟨s, .of_execute _ hs, fun h => absurd (h 1 3 hone hthree (by decide)) (by decide)⟩

end ChunkHound.DaemonStartup
