import ChunkHound.EmbeddingDrift
import ChunkHound.Interleaving

/-!
# The root of an index

An index is of one root. Whoever opens it names a root, and the first that may claim it puts its
root into a sidecar beside the database. A claim is written to a temporary file of its own, which is
then linked to the sidecar : the link fails where there is a sidecar.

* `claims_agree` : any number of openings at once, killed or failing anywhere, agree on the root,
  and a sidecar is never seen in part, nor changed.
* `other_root_refused` : who begins where there is a sidecar is admitted only under its root.

Whoever may not claim is admitted where there is no sidecar yet. A file that is written in whole is
taken as the JSON value of its text. Two openings never have the same temporary file, but there may
be one of that name from before.
-/

namespace ChunkHound.IndexedRoot

open ProxyBridge (Json)
open EmbeddingDrift (key isVersion)
open Interleaving StepSystem

/-! ## The sidecar -/

/-- A root, by the code points of its path. -/
abbrev Root := List ℕ

/-- What is in a file : a part of a text, or the JSON value of the whole. -/
inductive Content
  | torn
  | json (v : Json)

/-- `_read_indexed_root_sidecar`, of a file that can be read. -/
def readIndexedRootSidecar : Content → Option Root
  | .json (.obj data) =>
    if ((data.lookup (key "version")).map isVersion).getD false then
      match data.lookup (key "indexed_root_path") with
      | some (.str stored) => if stored = [] then none else some stored
      | _ => none
    else none
  | _ => none

/-- Whoever opens an index. The root is absolute. -/
structure Opening where
  root : Root
  nonempty : root ≠ []
  allowClaimIfMissing : Bool

def Opening.payload (o : Opening) : Content :=
  .json (.obj [(key "version", .int 1), (key "indexed_root_path", .str o.root)])

/-- What is claimed is read. -/
theorem readIndexedRootSidecar_payload (o : Opening) :
    readIndexedRootSidecar o.payload = some o.root := by
  have hread : readIndexedRootSidecar o.payload =
      if o.root = [] then none else some o.root := rfl
  rw [hread, if_neg o.nonempty]

/-! ## Opening -/

/-- How `_write_indexed_root_sidecar` ends. -/
inductive Claim
  | won
  | lost
  | raised
  deriving DecidableEq

inductive Admission
  | claimed
  | found
  | deferred
  deriving DecidableEq

/-- Where `ensure_indexed_root_identity` is : before the existence check, before the read, in
`_write_indexed_root_sidecar`, after a collision with so many reads to repeat, or ended. -/
inductive Phase
  | start
  | existing
  | create
  | fill
  | publish
  | unlink (claim : Claim)
  | collided (repeats : ℕ)
  | admitted (admission : Admission)
  | mismatch (stored : Root)
  | raised
  | killed
  deriving DecidableEq

/-- The opening has ended. -/
def Phase.ended : Phase → Bool
  | .admitted _ | .mismatch _ | .raised | .killed => true
  | _ => false

/-- A party, with its temporary file. -/
structure Party where
  phase : Phase
  temp : Option Content

inductive Fault
  | notFound
  | refused

/-- What a link raises that does not answer for the sidecar as it is : `FileExistsError` where there
was none, with the link made, or another error, with the link made or not. -/
inductive LinkFault
  | fileExists
  | other (made : Bool)

/-- What is done next, and how the file system answers. -/
inductive Event
  | look
  | read (fault : Option Fault)
  | create (fails : Bool)
  | write (fails whole : Bool)
  | link (fault : Option LinkFault)
  | unlink (removed : Bool)
  | kill

/-- A read of the sidecar. -/
def readSidecar (sidecar : Option Content) : Option Fault → Except Fault Root
  | some fault => .error fault
  | none =>
    match sidecar with
    | none => .error .notFound
    | some content =>
      match readIndexedRootSidecar content with
      | some stored => .ok stored
      | none => .error .refused

/-- `stored_root == current_root`. -/
def compareRoot (o : Opening) (stored : Root) : Phase :=
  if stored = o.root then .admitted .found else .mismatch stored

/-- After the read of a sidecar that exists. -/
def afterRead (o : Opening) : Except Fault Root → Phase
  | .ok stored => compareRoot o stored
  | .error _ => .raised

/-- `_read_indexed_root_sidecar_after_claim_collision`, after a read. -/
def afterCollision (o : Opening) (repeats : ℕ) : Except Fault Root → Phase
  | .ok stored => compareRoot o stored
  | .error .refused => .raised
  | .error .notFound =>
    match repeats with
    | 0 => .raised
    | n + 1 => .collided n

/-- After `_write_indexed_root_sidecar`. -/
def afterClaim : Claim → Phase
  | .won => .admitted .claimed
  | .lost => .collided 20
  | .raised => .raised

/-- `ensure_indexed_root_identity`, step by step. -/
def step (o : Opening) (sidecar : Option Content) (p : Party) :
    Event → Option (Option Content × Party)
  | .look =>
    match p.phase with
    | .start => some (sidecar, { p with phase :=
        if sidecar.isSome then .existing
        else if o.allowClaimIfMissing then .create else .admitted .deferred })
    | _ => none
  | .read fault =>
    match p.phase with
    | .existing => some (sidecar, { p with phase := afterRead o (readSidecar sidecar fault) })
    | .collided repeats =>
      some (sidecar, { p with phase := afterCollision o repeats (readSidecar sidecar fault) })
    | _ => none
  | .create fails =>
    match p.phase with
    | .create =>
      if fails then some (sidecar, { p with phase := .unlink .raised })
      else if p.temp.isSome then some (sidecar, { p with phase := .unlink .lost })
      else some (sidecar, ⟨.fill, some .torn⟩)
    | _ => none
  | .write fails whole =>
    match p.phase with
    | .fill =>
      if fails then some (sidecar, { p with phase := .unlink .raised })
      else if whole then some (sidecar, ⟨.publish, some o.payload⟩)
      else some (sidecar, p)
    | _ => none
  | .link fault =>
    match p.phase, fault, sidecar with
    | .publish, none, none => some (p.temp, { p with phase := .unlink .won })
    | .publish, none, some content => some (some content, { p with phase := .unlink .lost })
    | .publish, some .fileExists, none => some (p.temp, { p with phase := .unlink .lost })
    | .publish, some .fileExists, some content =>
      some (some content, { p with phase := .unlink .lost })
    | .publish, some (.other true), none => some (p.temp, { p with phase := .unlink .raised })
    | .publish, some (.other _), _ => some (sidecar, { p with phase := .unlink .raised })
    | _, _, _ => none
  | .unlink removed =>
    match p.phase with
    | .unlink claim => some (sidecar, ⟨afterClaim claim, if removed then none else p.temp⟩)
    | _ => none
  | .kill => if p.phase.ended then none else some (sidecar, { p with phase := .killed })

/-! ## What a party knows -/

/-- The sidecar is there, and of this root. -/
def Records (sidecar : Option Content) (root : Root) : Prop :=
  ∃ content, sidecar = some content ∧ readIndexedRootSidecar content = some root

/-- What holds of a party, by where it is. -/
def Knows (o : Opening) (sidecar : Option Content) (p : Party) : Prop :=
  match p.phase with
  | .create | .fill => o.allowClaimIfMissing = true
  | .publish => o.allowClaimIfMissing = true ∧ p.temp = some o.payload
  | .unlink .won | .admitted .claimed | .admitted .found => Records sidecar o.root
  | .mismatch stored => Records sidecar stored ∧ stored ≠ o.root
  | _ => True

/-- What a party does to the sidecar : nothing, or it claims it. -/
def Claims (o : Opening) (sidecar sidecar' : Option Content) : Prop :=
  sidecar' = sidecar ∨
    sidecar = none ∧ o.allowClaimIfMissing = true ∧ sidecar' = some o.payload

variable {sidecar sidecar' : Option Content} {o : Opening} {content : Content}

theorem Claims.stays
    (h : Claims o sidecar sidecar') (hc : sidecar = some content) : sidecar' = some content := by
  rcases h with rfl | ⟨hnone, -, -⟩
  · exact hc
  · rw [hnone] at hc
    cases hc

theorem Records.claims {root : Root}
    (h : Records sidecar root) (hc : Claims o sidecar sidecar') : Records sidecar' root := by
  obtain ⟨content, hsome, hread⟩ := h
  exact ⟨content, hc.stays hsome, hread⟩

/-- What a party knows stays so, whatever the others do. -/
theorem Knows.claims {o o' : Opening} {p : Party}
    (h : Knows o sidecar p) (hc : Claims o' sidecar sidecar') : Knows o sidecar' p := by
  unfold Knows at h ⊢
  split at h
  · exact h
  · exact h
  · exact h
  · exact h.claims hc
  · exact h.claims hc
  · exact h.claims hc
  · exact ⟨h.1.claims hc, h.2⟩
  · trivial

variable {stored : Root}

theorem readSidecar_ok {sidecar : Option Content} {fault : Option Fault}
    (h : readSidecar sidecar fault = .ok stored) : Records sidecar stored := by
  unfold readSidecar at h
  split at h
  · cases h
  · split at h
    · cases h
    · rename_i content
      split at h
      · rename_i root hread
        cases h
        exact ⟨content, rfl, hread⟩
      · cases h

variable {temp : Option Content}

theorem knows_compareRoot {sidecar : Option Content} (h : Records sidecar stored) :
    Knows o sidecar ⟨compareRoot o stored, temp⟩ := by
  unfold compareRoot
  split
  · rename_i heq
    rw [heq] at h
    exact h
  · rename_i hne
    exact ⟨h, hne⟩

theorem knows_afterRead {sidecar : Option Content}
    (fault : Option Fault) : Knows o sidecar ⟨afterRead o (readSidecar sidecar fault), temp⟩ := by
  cases hread : readSidecar sidecar fault with
  | error fault => trivial
  | ok stored => exact knows_compareRoot (readSidecar_ok hread)

theorem knows_afterCollision {sidecar : Option Content} (repeats : ℕ) (fault : Option Fault) :
    Knows o sidecar ⟨afterCollision o repeats (readSidecar sidecar fault), temp⟩ := by
  cases hread : readSidecar sidecar fault with
  | error fault =>
    cases fault with
    | refused => trivial
    | notFound => cases repeats <;> trivial
  | ok stored => exact knows_compareRoot (readSidecar_ok hread)

variable {p p' : Party} {e : Event}

/-- A step of a party keeps what it knows, and does nothing to the sidecar but claim it. -/
theorem Knows.step (h : Knows o sidecar p) (hs : step o sidecar p e = some (sidecar', p')) :
    Knows o sidecar' p' ∧ Claims o sidecar sidecar' := by
  obtain ⟨phase, temp⟩ := p
  cases e with
  | look =>
    cases phase with
    | start =>
      cases hs
      refine ⟨?_, .inl rfl⟩
      by_cases hsome : sidecar.isSome = true
      · rw [if_pos hsome]
        trivial
      · rw [if_neg hsome]
        cases hclaim : o.allowClaimIfMissing with
        | true => exact hclaim
        | false => trivial
    | _ => cases hs
  | read fault =>
    cases phase with
    | existing =>
      cases hs
      exact ⟨knows_afterRead fault, .inl rfl⟩
    | collided repeats =>
      cases hs
      exact ⟨knows_afterCollision repeats fault, .inl rfl⟩
    | _ => cases hs
  | create fails =>
    cases phase with
    | create =>
      cases fails with
      | true =>
        cases hs
        exact ⟨trivial, .inl rfl⟩
      | false =>
        cases temp with
        | none =>
          cases hs
          exact ⟨h, .inl rfl⟩
        | some content =>
          cases hs
          exact ⟨trivial, .inl rfl⟩
    | _ => cases hs
  | write fails whole =>
    cases phase with
    | fill =>
      cases fails <;> cases whole <;> cases hs
      · exact ⟨h, .inl rfl⟩
      · exact ⟨⟨h, rfl⟩, .inl rfl⟩
      · exact ⟨trivial, .inl rfl⟩
      · exact ⟨trivial, .inl rfl⟩
    | _ => cases hs
  | link fault =>
    cases phase with
    | publish =>
      obtain ⟨hclaim, htemp⟩ := h
      -- the link is made only where there is no sidecar
      have hpublish : Claims o none temp := .inr ⟨rfl, hclaim, htemp⟩
      match fault, sidecar with
      | none, none =>
        cases hs
        exact ⟨⟨o.payload, htemp, readIndexedRootSidecar_payload o⟩, hpublish⟩
      | none, some content =>
        cases hs
        exact ⟨trivial, .inl rfl⟩
      | some .fileExists, none =>
        cases hs
        exact ⟨trivial, hpublish⟩
      | some .fileExists, some content =>
        cases hs
        exact ⟨trivial, .inl rfl⟩
      | some (.other true), none =>
        cases hs
        exact ⟨trivial, hpublish⟩
      | some (.other true), some content =>
        cases hs
        exact ⟨trivial, .inl rfl⟩
      | some (.other false), none =>
        cases hs
        exact ⟨trivial, .inl rfl⟩
      | some (.other false), some content =>
        cases hs
        exact ⟨trivial, .inl rfl⟩
    | _ => cases hs
  | unlink removed =>
    cases phase with
    | unlink claim =>
      cases hs
      cases claim with
      | won => exact ⟨h, .inl rfl⟩
      | lost => exact ⟨trivial, .inl rfl⟩
      | raised => exact ⟨trivial, .inl rfl⟩
    | _ => cases hs
  | kill =>
    obtain ⟨-, ⟨⟩⟩ := Option.ite_none_left_eq_some.1 hs
    exact ⟨trivial, .inl rfl⟩

/-! ## Once there is a sidecar -/

/-- No step changes a sidecar that is there. -/
theorem step_sidecar {sidecar' : Option Content}
    (hs : step o (some content) p e = some (sidecar', p')) :
    sidecar' = some content := by
  obtain ⟨phase, temp⟩ := p
  cases e with
  | look =>
    cases phase with
    | start =>
      cases hs
      rfl
    | _ => cases hs
  | read fault => cases phase <;> cases hs <;> rfl
  | create fails => cases phase <;> cases fails <;> cases temp <;> cases hs <;> rfl
  | write fails whole => cases phase <;> cases fails <;> cases whole <;> cases hs <;> rfl
  | link fault =>
    rcases fault with _ | _ | _ | _ <;> cases phase <;> cases hs <;> rfl
  | unlink removed =>
    cases phase with
    | unlink claim =>
      cases hs
      rfl
    | _ => cases hs
  | kill =>
    obtain ⟨-, ⟨⟩⟩ := Option.ite_none_left_eq_some.1 hs
    rfl

/-- Where an opening is that begins where the sidecar is there. -/
def Late (o : Opening) (content : Content) : Phase → Prop
  | .start | .existing | .mismatch _ | .raised | .killed => True
  | .admitted .found => readIndexedRootSidecar content = some o.root
  | _ => False

theorem late_compareRoot
    (h : readIndexedRootSidecar content = some stored) : Late o content (compareRoot o stored) := by
  unfold compareRoot
  split
  · rename_i heq
    rw [heq] at h
    exact h
  · trivial

theorem Late.step {sidecar' : Option Content} (h : Late o content p.phase)
    (hs : step o (some content) p e = some (sidecar', p')) : Late o content p'.phase := by
  obtain ⟨phase, temp⟩ := p
  cases e with
  | look =>
    cases phase with
    | start =>
      cases hs
      trivial
    | _ => cases hs
  | read fault =>
    cases phase with
    | existing =>
      cases hs
      cases hread : readSidecar (some content) fault with
      | error fault => trivial
      | ok stored =>
        obtain ⟨content', hc, hstored⟩ := readSidecar_ok hread
        cases hc
        exact late_compareRoot hstored
    | collided repeats => exact h.elim
    | _ => cases hs
  | create fails =>
    cases phase with
    | create => exact h.elim
    | _ => cases hs
  | write fails whole =>
    cases phase with
    | fill => exact h.elim
    | _ => cases hs
  | link fault =>
    cases phase with
    | publish => exact h.elim
    | _ => cases hs
  | unlink removed =>
    cases phase with
    | unlink claim => exact h.elim
    | _ => cases hs
  | kill =>
    obtain ⟨-, ⟨⟩⟩ := Option.ite_none_left_eq_some.1 hs
    trivial

/-! ## Any number of openings -/

variable {ι : Type*} (openings : ι → Opening)

abbrev Openings (ι : Type*) := World ι (Option Content) Party

abbrev opens [DecidableEq ι] : Openings ι → ι × Event → Option (Openings ι) :=
  act fun i => step (openings i)

theorem knows_guaranteed : Guaranteed (fun i => step (openings i)) (fun i => Claims (openings i))
    (fun i => Knows (openings i)) where
  keeps := fun h hs => h.step hs
  stable := fun _ h hc => h.claims hc

/-- What becomes of the sidecar over any claims. -/
theorem claims_many
    (h : Relation.ReflTransGen (fun s s' => ∃ i, Claims (openings i) s s') sidecar sidecar') :
    (∀ content, sidecar = some content → sidecar' = some content) ∧
      ∀ content, sidecar' = some content → sidecar = some content ∨
        ∃ i, (openings i).allowClaimIfMissing = true ∧ content = (openings i).payload := by
  induction h with
  | refl => exact ⟨fun _ hc => hc, fun _ hc => .inl hc⟩
  | tail _ hclaims ih =>
    obtain ⟨i, hi⟩ := hclaims
    refine ⟨fun content hc => hi.stays (ih.1 content hc), fun content hc => ?_⟩
    rcases hi with rfl | ⟨-, hclaim, rfl⟩
    · exact ih.2 content hc
    · exact .inr ⟨i, hclaim, (Option.some.inj hc).symm⟩

/-- The opening ended well, with the sidecar there. -/
def Admitted (p : Party) : Prop := p.phase = .admitted .claimed ∨ p.phase = .admitted .found

theorem Knows.records {sidecar : Option Content} {p : Party}
    (h : Knows o sidecar p) (ha : Admitted p) : Records sidecar o.root := by
  obtain ⟨phase, temp⟩ := p
  rcases ha with ha | ha
  · obtain rfl : phase = .admitted .claimed := ha
    exact h
  · obtain rfl : phase = .admitted .found := ha
    exact h

/-- Over any run of openings, all that are admitted with the sidecar there have its root, so they
have the same. A sidecar that was there stays, and one that comes is a claim in whole. -/
theorem claims_agree [DecidableEq ι] {w w' : Openings ι} (h : Reach (opens openings) w w')
    (hstart : ∀ i, (w.locals i).phase = .start) :
    (∀ i, Admitted (w'.locals i) → Records w'.shared (openings i).root) ∧
      (∀ i j, Admitted (w'.locals i) → Admitted (w'.locals j) →
        (openings i).root = (openings j).root) ∧
      (∀ content, w.shared = some content → w'.shared = some content) ∧
      (∀ content, w'.shared = some content → w.shared = some content ∨
        ∃ i, (openings i).allowClaimIfMissing = true ∧ content = (openings i).payload) := by
  have hinit : ∀ i, Knows (openings i) w.shared (w.locals i) := by
    intro i
    rw [Knows, hstart i]
    trivial
  obtain ⟨hknows, hclaims⟩ := (knows_guaranteed openings).invariant hinit h
  have hrecords : ∀ i, Admitted (w'.locals i) → Records w'.shared (openings i).root :=
    fun i ha => (hknows i).records ha
  refine ⟨hrecords, fun i j hi hj => ?_, (claims_many openings hclaims).1,
    (claims_many openings hclaims).2⟩
  obtain ⟨content, hc, hread⟩ := hrecords i hi
  obtain ⟨content', hc', hread'⟩ := hrecords j hj
  rw [hc] at hc'
  cases hc'
  exact Option.some.inj (hread.symm.trans hread')

/-- Two openings, each of its own root. -/
def twoRoots (first : Bool) : Opening where
  root := if first then key "/a" else key "/b"
  nonempty := by cases first <;> decide
  allowClaimIfMissing := true

def unclaimed : Openings Bool := ⟨none, fun _ => ⟨.start, none⟩⟩

/-- Both find no sidecar and write what they claim, and the second comes too late with the link. -/
def bothClaim : List (Bool × Event) :=
  [(true, .look), (false, .look), (true, .create false), (false, .create false),
    (false, .write false true), (true, .write false false), (true, .write false true),
    (true, .link none), (false, .link none), (false, .unlink true), (false, .read (some .notFound)),
    (false, .read none), (true, .unlink true)]

theorem claims_agree_bothClaim : ∃ w, execute (opens twoRoots) unclaimed bothClaim = some w ∧
    (w.locals false).phase = .mismatch (key "/a") ∧ Records w.shared (key "/a") :=
  ⟨_, rfl, rfl, (claims_agree (w := unclaimed) twoRoots (Reach.of_execute bothClaim rfl)
    (fun _ => rfl)).1 true (.inl rfl)⟩

theorem late_guaranteed {i₀ : ι} : Guaranteed (fun i => step (openings i))
    (fun _ s s' => s = some content → s' = some content)
    (fun i s p => s = some content ∧ (i = i₀ → Late (openings i) content p.phase)) where
  keeps := by
    rintro i sidecar p e sidecar' p' ⟨rfl, hlate⟩ hs
    have hstays : sidecar' = some content := step_sidecar hs
    exact ⟨⟨hstays, fun hi => (hlate hi).step hs⟩, fun _ => hstays⟩
  stable := fun _ h hG => ⟨hG h.1, h.2⟩

/-- Whoever begins where there is a sidecar is admitted, at any time after, only if it is of the
same root. -/
theorem other_root_refused [DecidableEq ι] {w w' : Openings ι} (h : Reach (opens openings) w w')
    {i : ι} {content : Content} (hstart : (w.locals i).phase = .start)
    (hsidecar : w.shared = some content)
    (hroot : readIndexedRootSidecar content ≠ some (openings i).root) (admission : Admission) :
    (w'.locals i).phase ≠ .admitted admission := by
  have hinit : ∀ j, w.shared = some content ∧
      (j = i → Late (openings j) content (w.locals j).phase) := by
    intro j
    refine ⟨hsidecar, ?_⟩
    rintro rfl
    rw [hstart]
    trivial
  obtain ⟨-, hlate⟩ := ((late_guaranteed openings).invariant hinit h).1 i
  intro ha
  have hfound := hlate rfl
  rw [ha] at hfound
  cases admission with
  | claimed => exact hfound
  | found => exact hroot hfound
  | deferred => exact hfound

def claimed : Openings Bool := ⟨some (twoRoots true).payload, fun _ => ⟨.start, none⟩⟩

theorem other_root_refused_claimed :
    ∃ w, execute (opens twoRoots) claimed [(false, .look), (false, .read none)] = some w ∧
      ∀ admission, (w.locals false).phase ≠ .admitted admission := by
  have hroot : readIndexedRootSidecar (twoRoots true).payload ≠ some (twoRoots false).root := by
    decide
  exact ⟨_, rfl, other_root_refused (w := claimed) twoRoots
    (Reach.of_execute [(false, .look), (false, .read none)] rfl) rfl rfl hroot⟩

end ChunkHound.IndexedRoot
