import ChunkHound.Realtime
import ChunkHound.RelativePaths
import Mathlib

/-!
# Translating Watchman payloads

A payload of a subscription lists files by their names below the root of its scope.
`_consume_subscription_pdus` makes an event of each file, at the requested path of the scope joined
with the name, or asks for a resync where it cannot.

No event leaves its scope. A name is stripped, and its backslashes are read as slashes, so the event
is at the name's own path where it has neither. A payload without a resync has an event for every
file, and for every directory that is gone or new; links and other special files are skipped with a
warning, and nothing else comes of it (`translation_sound`).
-/

namespace ChunkHound.WatchmanEntries

open Realtime

/-! ## Payloads -/

/-- A value of a payload. Lists and objects are `nested`. -/
inductive Value
  | null
  | bool (value : Bool)
  | text (value : List Char)
  | number
  | nested
  deriving DecidableEq

/-- An entry of `files`, with `null` for what it leaves out. -/
structure FileEntry where
  name : Value
  fileExists : Value
  isNew : Value
  fileType : Value

/-- `files` is missing unless it is a list, and an entry unless it is an object. -/
structure Payload where
  isFreshInstance : Value
  freshInstance : Value
  warning : Value
  subscription : Value
  files : Option (List (Option FileEntry))

structure Scope where
  requestedPath : PurePath

/-- `should_index`, which may raise. -/
abbrev PathFilter := PurePath → Except Unit Bool

/-- What the adapter has. `ingests` : `ingest_realtime_event` returns. -/
structure Adapter where
  scopeMap : List Char → Option Scope
  scopePlan : Option (List Scope)
  pathFilterForScope : Scope → Option PathFilter
  ingests : EventType → PurePath → Bool → Bool

inductive Effect
  | ingest (eventType : EventType) (path : PurePath) (shouldIndex : Bool)
  | warn
  | resync (reason : String) (failureKind : Option String)
  deriving DecidableEq

/-! ## Entries -/

/-- A `_WatchmanTranslationError`, or another exception. -/
inductive Failure
  | translation (failureKind : String)
  | exception
  deriving DecidableEq

def Failure.kind : Failure → String
  | .translation failureKind => failureKind
  | .exception => "translation_exception"

/-- What is in the set of types. A value that cannot be hashed raises. -/
def expectedType : Value → Except Failure Bool
  | .null => .ok true
  | .text fileType => .ok (fileType = ['f'] ∨ fileType = ['d'])
  | .nested => .error .exception
  | .bool _ | .number => .ok false

/-- The event for a file or a directory. -/
def eventTypeOf (entry : FileEntry) : Option EventType :=
  if entry.fileType = .text ['d'] then
    if entry.fileExists = .bool false then some .dirDeleted
    else if entry.fileExists = .bool true ∧ entry.isNew = .bool true then some .dirCreated
    else none
  else if entry.fileExists = .bool false then some .deleted
  else if entry.fileExists = .bool true ∧ entry.isNew = .bool true then some .created
  else some .modified

/-- `name.strip().replace("\\", "/")`. -/
def normalized (name : List Char) : List Char :=
  (strip name).map fun c => if c = '\\' then '/' else c

/-- `_translate_watchman_file_entry`. -/
def translateWatchmanFileEntry (entry : FileEntry) (scope : Scope) :
    Except Failure (Option (EventType × PurePath)) :=
  match expectedType entry.fileType with
  | .error failure => .error failure
  | .ok false => .ok none
  | .ok true =>
    match entry.name with
    | .text name =>
      if strip name = [] then .error (.translation "invalid_entry_name")
      else
        let relativeName := PurePath.ofString (String.ofList (normalized name))
        if (normalized name).head? = some '/' ∨ parentPart ∈ relativeName.parts ∨
            relativeName.parts = [] then .error (.translation "unsafe_path")
        else
          let canonicalPath := scope.requestedPath.join relativeName
          match canonicalPath.relativeTo scope.requestedPath with
          | .error _ => .error (.translation "out_of_scope_path")
          | .ok _ => .ok ((eventTypeOf entry).map (·, canonicalPath))
    | .null | .bool _ | .number | .nested => .error (.translation "invalid_entry_name")

/-! ## Payloads, in order -/

/-- `_handle_loss_of_sync_payload` : the reason for a resync. -/
def lossOfSync (payload : Payload) : Option String :=
  if payload.isFreshInstance = .bool true ∨ payload.freshInstance = .bool true then
    some "fresh_instance"
  else
    match payload.warning with
    | .text warning =>
      if "recrawl".toList <:+: warning.map Char.toLower then some "recrawl" else none
    | .null | .bool _ | .number | .nested => none

section Consume

variable (adapter : Adapter)

/-- `_scope_for_payload`. -/
def scopeForPayload (payload : Payload) : Option Scope :=
  let subscriptionName := match payload.subscription with
    | .text name => name
    | .null | .bool _ | .number | .nested => []
  match adapter.scopeMap subscriptionName with
  | some scope => some scope
  | none =>
    match adapter.scopePlan with
    | some [scope] => some scope
    | _ => none

/-- `_should_admit_event`. -/
def shouldAdmitEvent (eventType : EventType) (path : PurePath) (pathFilter : PathFilter) :
    Except Unit Bool :=
  match eventType with
  | .dirCreated | .dirDeleted => .ok true
  | .created | .modified | .deleted => pathFilter path

/-- The loop over `files`. It ends at the first entry that fails. -/
def translateEntries (scope : Scope) (pathFilter : PathFilter) :
    List (Option FileEntry) → List Effect
  | [] => []
  | none :: _ => [.resync "translation_failure" (some "invalid_entry_object")]
  | some entry :: files =>
    match translateWatchmanFileEntry entry scope with
    | .error failure => [.resync "translation_failure" (some failure.kind)]
    | .ok none =>
      if expectedType entry.fileType = .ok false then
        .warn :: translateEntries scope pathFilter files
      else translateEntries scope pathFilter files
    | .ok (some (eventType, path)) =>
      match shouldAdmitEvent eventType path pathFilter with
      | .error _ => [.resync "translation_failure" (some Failure.exception.kind)]
      | .ok shouldIndex =>
        if adapter.ingests eventType path shouldIndex then
          .ingest eventType path shouldIndex :: translateEntries scope pathFilter files
        else [.resync "translation_failure" (some Failure.exception.kind)]

/-- `_translate_subscription_pdu`. -/
def translateSubscriptionPdu (payload : Payload) (scope : Scope) : List Effect :=
  match payload.files, adapter.pathFilterForScope scope with
  | none, _ => [.resync "translation_failure" (some "missing_files_list")]
  | some _, none => [.resync "translation_failure" (some "missing_path_filter")]
  | some files, some pathFilter => translateEntries adapter scope pathFilter files

/-- `_consume_subscription_pdus`, for a payload. -/
def consume (payload : Payload) : List Effect :=
  match lossOfSync payload with
  | some reason => [.resync reason none]
  | none =>
    match scopeForPayload adapter payload with
    | none => [.resync "scope_mapping_failure" (some "unknown_scope")]
    | some scope => translateSubscriptionPdu adapter payload scope

end Consume

/-! ## Where events lie -/

/-- An entry asks for an event : a file, or a directory that is gone or new. -/
def FileEntry.Reports (entry : FileEntry) (eventType : EventType) : Prop :=
  expectedType entry.fileType = .ok true ∧ eventTypeOf entry = some eventType

/-- A path below a scope, by its name there. -/
structure Below (scope : Scope) (rel path : PurePath) : Prop where
  ne : rel.parts ≠ []
  noParent : parentPart ∉ rel.parts
  join : path = scope.requestedPath.join rel

section Entry

variable {entry : FileEntry} {scope : Scope} {eventType : EventType} {path rel : PurePath}

/-- The event of an entry lies below the scope. -/
theorem translate_some
    (h : translateWatchmanFileEntry entry scope = .ok (some (eventType, path))) :
    entry.Reports eventType ∧ ∃ rel, Below scope rel path := by
  unfold translateWatchmanFileEntry at h
  split at h
  · cases h
  · cases h
  · rename_i htype
    split at h
    case h_2 | h_3 | h_4 | h_5 => cases h
    split at h
    · cases h
    dsimp only at h
    split at h
    · cases h
    · rename_i hsafe
      push Not at hsafe
      split at h
      · cases h
      · obtain ⟨t, ht, heq⟩ := Option.map_eq_some_iff.1 (Except.ok.inj h)
        obtain ⟨rfl, rfl⟩ := Prod.mk.inj heq
        exact ⟨⟨htype, ht⟩, _, hsafe.2.2, hsafe.2.1, rfl⟩

/-- An entry without an event is of another type, or a directory that is neither gone nor new. -/
theorem translate_none (h : translateWatchmanFileEntry entry scope = .ok none) :
    ¬ entry.Reports eventType := by
  rintro ⟨htype, hevent⟩
  unfold translateWatchmanFileEntry at h
  rw [htype] at h
  dsimp only at h
  split at h
  case h_2 | h_3 | h_4 | h_5 => cases h
  split at h
  · cases h
  · split at h
    · cases h
    · split at h
      · cases h
      · rw [hevent] at h
        cases h

/-- A name that neither begins nor ends with whitespace and has no backslash. -/
structure PlainName (rel : PurePath) : Prop where
  ne : rel.parts ≠ []
  noParent : parentPart ∉ rel.parts
  stripped : strip rel.posix = rel.posix
  noBackslash : '\\' ∉ rel.posix

theorem normalized_posix (h : PlainName rel) : normalized rel.posix = rel.posix := by
  unfold normalized
  rw [h.stripped]
  refine (List.map_congr_left fun c hc => ?_).trans (List.map_id _)
  exact if_neg fun heq : c = '\\' => h.noBackslash (heq ▸ hc)

/-- The event of a file with a plain name is at the path with that name. -/
theorem translate_plain (h : PlainName rel) (hname : entry.name = .text rel.posix)
    (htype : expectedType entry.fileType = .ok true) :
    translateWatchmanFileEntry entry scope =
      .ok ((eventTypeOf entry).map (·, scope.requestedPath.join rel)) := by
  have hread : PurePath.ofString (String.ofList rel.posix) = rel := PurePath.ofString_asPosix rel
  have hne : rel.posix ≠ [] := fun hnil => by
    have hparts := rel.segments_posix
    rw [hnil] at hparts
    exact h.ne hparts.symm
  unfold translateWatchmanFileEntry
  rw [htype, hname]
  dsimp only
  rw [h.stripped, if_neg hne, normalized_posix h, hread,
    if_neg (by simp [PurePath.head?_posix h.ne, h.noParent, h.ne]), PurePath.relativeTo_join]

end Entry

/-! ## What payloads come to -/

section Payloads

variable {adapter : Adapter} {scope : Scope} {pathFilter : PathFilter}

theorem ingest_translateEntries {eventType : EventType} {path : PurePath} {shouldIndex : Bool} :
    ∀ {files : List (Option FileEntry)},
      .ingest eventType path shouldIndex ∈ translateEntries adapter scope pathFilter files →
        ∃ rel, Below scope rel path
  | [], h => nomatch h
  | none :: files, h => by
    rw [translateEntries, List.mem_singleton] at h
    cases h
  | some entry :: files, h => by
    rw [translateEntries] at h
    split at h
    · cases List.mem_singleton.1 h
    · split at h
      · rcases List.mem_cons.1 h with h | h
        · cases h
        · exact ingest_translateEntries h
      · exact ingest_translateEntries h
    · rename_i t p htranslate
      split at h
      · cases List.mem_singleton.1 h
      · split at h
        · rcases List.mem_cons.1 h with h | h
          · cases h
            exact (translate_some htranslate).2
          · exact ingest_translateEntries h
        · cases List.mem_singleton.1 h

/-- A resync is asked for. -/
def Resyncs (effects : List Effect) : Prop :=
  ∃ reason failureKind, .resync reason failureKind ∈ effects

/-- What an entry comes to : its event if it asks for one, a warning if it is of another type, and
nothing if it is a directory that is neither gone nor new. -/
structure Answered (scope : Scope) (entry : FileEntry) (effects : List Effect) : Prop where
  event : ∀ eventType, entry.Reports eventType → ∃ path shouldIndex,
    translateWatchmanFileEntry entry scope = .ok (some (eventType, path)) ∧
      effects = [.ingest eventType path shouldIndex]
  unexpected : expectedType entry.fileType = .ok false → effects = [.warn]
  unchanged : expectedType entry.fileType = .ok true → eventTypeOf entry = none → effects = []

/-- Every entry is an object, and the effects are those of the entries in their order. -/
def Reported (scope : Scope) (files : List (Option FileEntry)) (effects : List Effect) : Prop :=
  ∃ (entries : List FileEntry) (parts : List (List Effect)), files = entries.map some ∧
    effects = parts.flatten ∧ List.Forall₂ (Answered scope) entries parts

theorem Reported.cons {files : List (Option FileEntry)} {effects : List Effect}
    {entry : FileEntry} (h : Reported scope files effects) (part : List Effect)
    (hentry : Answered scope entry part) :
    Reported scope (some entry :: files) (part ++ effects) := by
  obtain ⟨entries, parts, rfl, rfl, hall⟩ := h
  exact ⟨entry :: entries, part :: parts, rfl, rfl, .cons hentry hall⟩

/-- The loop asks for a resync, or does for every entry what that comes to. -/
theorem translateEntries_complete : ∀ files : List (Option FileEntry),
    Resyncs (translateEntries adapter scope pathFilter files) ∨
      Reported scope files (translateEntries adapter scope pathFilter files)
  | [] => Or.inr ⟨[], [], rfl, rfl, .nil⟩
  | none :: files => Or.inl ⟨_, _, List.mem_singleton_self _⟩
  | some entry :: files => by
    have ih := translateEntries_complete files
    rw [translateEntries]
    split
    · exact Or.inl ⟨_, _, List.mem_singleton_self _⟩
    · rename_i hnone
      have hentry : ∀ eventType, ¬ entry.Reports eventType := fun _ => translate_none hnone
      split
      · rename_i htype
        refine ih.imp (fun ⟨reason, kind, h⟩ => ⟨reason, kind, List.mem_cons_of_mem _ h⟩)
          fun h => h.cons [.warn] ⟨fun t ht => absurd ht (hentry t), fun _ => rfl,
            fun htrue => ?_⟩
        cases htype.symm.trans htrue
      · rename_i htype
        exact ih.imp_right fun h => h.cons [] ⟨fun t ht => absurd ht (hentry t),
          fun hfalse => absurd hfalse htype, fun _ _ => rfl⟩
    · rename_i t p htranslate
      obtain ⟨htype, hevent⟩ := (translate_some htranslate).1
      split
      · exact Or.inl ⟨_, _, List.mem_singleton_self _⟩
      · rename_i shouldIndex _
        split
        · refine ih.imp (fun ⟨reason, kind, h⟩ => ⟨reason, kind, List.mem_cons_of_mem _ h⟩)
            fun h => h.cons [.ingest t p shouldIndex] ⟨fun t' ht' => ?_,
              fun hfalse => ?_, fun _ hnone => ?_⟩
          · obtain rfl : t = t' := Option.some.inj (hevent.symm.trans ht'.2)
            exact ⟨p, shouldIndex, htranslate, rfl⟩
          · cases hfalse.symm.trans htype
          · cases hnone.symm.trans hevent
        · exact Or.inl ⟨_, _, List.mem_singleton_self _⟩

/-- Events lie below the scope of the payload; those of files with a plain name are at the path with
that name; and a payload without a resync comes to the event of every entry that asks for one, a
warning for every entry of another type, and nothing more. -/
theorem translation_sound (adapter : Adapter) (payload : Payload) :
    (∀ eventType path shouldIndex,
      .ingest eventType path shouldIndex ∈ consume adapter payload →
        ∃ scope rel, scopeForPayload adapter payload = some scope ∧ Below scope rel path) ∧
    (∀ entry scope rel, PlainName rel → entry.name = .text rel.posix →
      ∀ eventType, entry.Reports eventType →
        translateWatchmanFileEntry entry scope =
          .ok (some (eventType, scope.requestedPath.join rel))) ∧
    (Resyncs (consume adapter payload) ∨
      ∃ scope files, scopeForPayload adapter payload = some scope ∧ payload.files = some files ∧
        Reported scope files (consume adapter payload)) := by
  refine ⟨fun eventType path shouldIndex h => ?_,
    fun entry scope rel hplain hname eventType h => ?_, ?_⟩
  · unfold consume translateSubscriptionPdu at h
    split at h
    · cases List.mem_singleton.1 h
    split at h
    · cases List.mem_singleton.1 h
    · rename_i scope hscope
      split at h
      · cases List.mem_singleton.1 h
      · cases List.mem_singleton.1 h
      · obtain ⟨rel, hrel⟩ := ingest_translateEntries h
        exact ⟨scope, rel, hscope, hrel⟩
  · rw [translate_plain hplain hname h.1, h.2]
    rfl
  · unfold consume translateSubscriptionPdu
    split
    · exact Or.inl ⟨_, _, List.mem_singleton_self _⟩
    split
    · exact Or.inl ⟨_, _, List.mem_singleton_self _⟩
    · rename_i scope hscope
      split
      · exact Or.inl ⟨_, _, List.mem_singleton_self _⟩
      · exact Or.inl ⟨_, _, List.mem_singleton_self _⟩
      · rename_i files pathFilter hfiles _
        refine (translateEntries_complete files).imp_right fun h => ?_
        exact ⟨scope, files, hscope, hfiles, h⟩

end Payloads

def projectScope : Scope := ⟨.ofString "/r"⟩

/-- An adapter with one scope, which indexes everything. -/
def oneScope : Adapter where
  scopeMap _ := none
  scopePlan := some [projectScope]
  pathFilterForScope _ := some fun _ => .ok true
  ingests _ _ _ := true

/-- A new entry. -/
def newEntry (name fileType : String) : FileEntry :=
  ⟨.text name.toList, .bool true, .bool true, .text fileType.toList⟩

def payloadOf (entry : FileEntry) : Payload :=
  ⟨.null, .null, .null, .text "s".toList, some [some entry]⟩

theorem translation_newFile :
    translateWatchmanFileEntry (newEntry "src/a.py" "f") projectScope =
      .ok (some (.created, projectScope.requestedPath.join (.ofString "src/a.py"))) :=
  (translation_sound oneScope (payloadOf (newEntry "src/a.py" "f"))).2.1
    (newEntry "src/a.py" "f") projectScope (.ofString "src/a.py")
    ⟨by decide +kernel, by decide +kernel, by decide +kernel, by decide +kernel⟩
    (by decide +kernel) .created ⟨by decide +kernel, by decide +kernel⟩

/-- A link has neither an event nor a resync, and the event of ` a.py` is at another path. -/
theorem link_skipped :
    consume oneScope (payloadOf (newEntry "a.py" "l")) = [.warn] ∧
      translateWatchmanFileEntry (newEntry " a.py" "f") projectScope =
        .ok (some (.created, projectScope.requestedPath.join (.ofString "a.py"))) ∧
      projectScope.requestedPath.join (.ofString "a.py") ≠
        projectScope.requestedPath.join (.ofString " a.py") := by
  decide +kernel

end ChunkHound.WatchmanEntries
