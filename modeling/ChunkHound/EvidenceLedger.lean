import ChunkHound.ChunkDiff

/-!
# The evidence ledger

`EvidenceLedger` of `ledger.py` : constants by file and name, facts by id, and for each normalised
name of an entity the ids of the facts that mention it. The dictionaries keep the order of
insertion. What `str.lower` does is a parameter.

`add_constant` keeps the first constant of a key, and `merge` the last one, so that collecting
evidence in two batches gives the ledger of one batch exactly when the first constants of each key
are the same in both (`fromChunks_append_iff`).
-/

namespace ChunkHound

namespace EvidenceLedger

open OrderedDict

/-! ## Entries -/

/-- How sure a fact is. -/
inductive ConfidenceLevel
  | definite
  | likely
  | inferred
  | uncertain
  deriving DecidableEq

def ConfidenceLevel.value : ConfidenceLevel → String
  | .definite => "definite"
  | .likely => "likely"
  | .inferred => "inferred"
  | .uncertain => "uncertain"

/-- `ConfidenceLevel(value)`. -/
def ConfidenceLevel.ofValue (value : String) : Option ConfidenceLevel :=
  if value = "definite" then some .definite
  else if value = "likely" then some .likely
  else if value = "inferred" then some .inferred
  else if value = "uncertain" then some .uncertain
  else none

theorem ConfidenceLevel.ofValue_value (c : ConfidenceLevel) :
    ConfidenceLevel.ofValue c.value = some c := by
  cases c <;> decide

/-- A constant and the file it is in. -/
structure ConstantEntry where
  name : String
  filePath : String
  value : Option String
  type : Option String
  deriving DecidableEq

/-- A fact and where it was read. -/
structure FactEntry where
  factId : String
  statement : String
  filePath : String
  startLine : ℤ
  endLine : ℤ
  category : String
  confidence : ConfidenceLevel
  entities : List String
  clusterId : ℤ
  url : Option String
  sourceSection : Option String
  deriving DecidableEq

/-- The facts that name an entity. -/
structure EntityLink where
  entityName : String
  factIds : List String
  deriving DecidableEq

/-- Two facts that disagree. -/
structure FactConflict where
  factIdA : String
  factIdB : String
  reason : String
  deriving DecidableEq

end EvidenceLedger

open OrderedDict EvidenceLedger

/-- Constants, facts and the index of entities. -/
structure EvidenceLedger where
  constants : List (String × ConstantEntry)
  facts : List (String × FactEntry)
  entityIndex : List (String × EntityLink)
  conflicts : List FactConflict
  deriving DecidableEq

namespace EvidenceLedger

def empty : EvidenceLedger := ⟨[], [], [], []⟩

/-- `_normalize_entity_name`. -/
def normalizeEntityName (lower : String → String) (name : String) : String :=
  lower (String.ofList (strip name.toList))

/-! ## Mutation -/

/-- Constants are kept by file and name. -/
def ConstantEntry.key (entry : ConstantEntry) : String := entry.filePath ++ ":" ++ entry.name

/-- A constant that is there stays. -/
def addConstant (ledger : EvidenceLedger) (entry : ConstantEntry) : EvidenceLedger :=
  { ledger with constants := alter (·.getD entry) entry.key ledger.constants }

/-- The link of an entity gets the id of a fact, unless it has it. -/
def linkTo (entity factId : String) : Option EntityLink → EntityLink
  | none => ⟨entity, [factId]⟩
  | some existing =>
    if factId ∈ existing.factIds then existing
    else ⟨existing.entityName, existing.factIds ++ [factId]⟩

/-- The links of the entities of a fact. -/
def addLinks (lower : String → String) (index : List (String × EntityLink)) (fact : FactEntry) :
    List (String × EntityLink) :=
  alterAll (normalizeEntityName lower) (linkTo · fact.factId) index fact.entities

/-- Replaces a fact of the same id, and adds its links. -/
def addFact (lower : String → String) (ledger : EvidenceLedger) (fact : FactEntry) :
    EvidenceLedger :=
  { ledger with
    facts := insert fact.factId fact ledger.facts
    entityIndex := addLinks lower ledger.entityIndex fact }

def addFacts (lower : String → String) (ledger : EvidenceLedger) (facts : List FactEntry) :
    EvidenceLedger :=
  facts.foldl (addFact lower) ledger

/-- The facts of both are added anew. -/
def merge (lower : String → String) (ledger other : EvidenceLedger) : EvidenceLedger :=
  { addFacts lower (addFacts lower empty (values ledger.facts)) (values other.facts) with
    constants := update ledger.constants other.constants
    conflicts := ledger.conflicts ++ other.conflicts }

/-- What `from_chunks` reads of a constant in a chunk's metadata. -/
structure ConstantData where
  name : Option String
  value : Option String
  type : Option String

/-- What `from_chunks` reads of a chunk : no metadata and no list of constants are empty ones. -/
structure ChunkData where
  filePath : Option String
  constants : List ConstantData

/-- The constants of a chunk that have a name. -/
def ChunkData.entries (chunk : ChunkData) : List ConstantEntry :=
  chunk.constants.filterMap fun const =>
    match const.name with
    | none => none
    | some name =>
      if name = "" then none else some ⟨name, chunk.filePath.getD "", const.value, const.type⟩

def fromChunks (chunks : List ChunkData) : EvidenceLedger :=
  chunks.foldl (fun ledger chunk => chunk.entries.foldl addConstant ledger) empty

/-- The facts stay, the constants are those of the chunks. -/
def replaceConstantsFromChunks (lower : String → String) (ledger : EvidenceLedger)
    (chunks : List ChunkData) : EvidenceLedger :=
  { addFacts lower (fromChunks chunks) (values ledger.facts) with conflicts := ledger.conflicts }

/-! ## Queries -/

/-- The facts that the index lists. -/
def getFactsForEntity (lower : String → String) (ledger : EvidenceLedger) (entity : String) :
    List FactEntry :=
  match ledger.entityIndex.lookup (normalizeEntityName lower entity) with
  | none => []
  | some link => link.factIds.filterMap fun factId => ledger.facts.lookup factId

/-! ## Constants in batches -/

/-- The constants of some chunks, in order. -/
def entriesOf (chunks : List ChunkData) : List ConstantEntry := chunks.flatMap ChunkData.entries

/-- The constants, by key. The first of a key stays. -/
def constantsOf (entries : List ConstantEntry) : List (String × ConstantEntry) :=
  alterAll ConstantEntry.key (fun entry v => v.getD entry) [] entries

theorem foldl_addConstant (entries : List ConstantEntry) : ∀ (ledger : EvidenceLedger),
    entries.foldl addConstant ledger = { ledger with
      constants := alterAll ConstantEntry.key (fun entry v => v.getD entry) ledger.constants
        entries } := by
  induction entries with
  | nil => exact fun _ => rfl
  | cons entry entries ih => exact fun ledger => ih (ledger.addConstant entry)

theorem fromChunks_eq (chunks : List ChunkData) :
    fromChunks chunks = { empty with constants := constantsOf (entriesOf chunks) } := by
  unfold fromChunks entriesOf
  rw [← List.foldl_flatMap, foldl_addConstant]
  rfl

/-- The constant of a key is the first one. -/
theorem lookup_constantsOf (entries : List ConstantEntry) (key : String) :
    (constantsOf entries).lookup key = entries.find? (·.key = key) := by
  have hfirst : ∀ (l : List ConstantEntry) (v : Option ConstantEntry),
      l.foldl (fun v entry => some (v.getD entry)) v = v.or l.head? := by
    intro l
    induction l with
    | nil => exact fun v => (Option.or_none).symm
    | cons entry l ih =>
      intro v
      rw [List.foldl_cons, ih]
      cases v <;> rfl
  unfold constantsOf
  rw [lookup_alterAll, hfirst, List.head?_filter]
  rfl

theorem nodup_keys_constantsOf (entries : List ConstantEntry) :
    (keys (constantsOf entries)).Nodup :=
  nodup_keys_alterAll _ _ List.nodup_nil

/-- Merging the constants of two batches lists the keys in the order of one batch. -/
theorem keys_update_constantsOf (a b : List ConstantEntry) :
    keys (update (constantsOf a) (constantsOf b)) = keys (constantsOf (a ++ b)) := by
  have hb := update_nil (nodup_keys_constantsOf b)
  unfold constantsOf at hb ⊢
  rw [alterAll_append, keys_alterAll _ _ (alterAll _ _ [] a) b, update_eq_alterAll, keys_alterAll,
    ← update_eq_alterAll, hb]

/-- One batch gives what two batches give exactly when the first constants of each key are the same
in both. -/
theorem fromChunks_append_iff (lower : String → String) (a b : List ChunkData) :
    fromChunks (a ++ b) = merge lower (fromChunks a) (fromChunks b) ↔
      ∀ key, ∀ c ∈ (entriesOf a).find? (·.key = key), ∀ d ∈ (entriesOf b).find? (·.key = key),
        c = d := by
  have happend : entriesOf (a ++ b) = entriesOf a ++ entriesOf b := List.flatMap_append
  have hmerge : fromChunks (a ++ b) = merge lower (fromChunks a) (fromChunks b) ↔
      constantsOf (entriesOf a ++ entriesOf b) =
        update (constantsOf (entriesOf a)) (constantsOf (entriesOf b)) := by
    rw [fromChunks_eq, fromChunks_eq, fromChunks_eq, happend]
    exact ⟨fun h => congrArg EvidenceLedger.constants h, fun h => by rw [h]; rfl⟩
  have hlookup : ∀ key,
      (update (constantsOf (entriesOf a)) (constantsOf (entriesOf b))).lookup key =
      ((entriesOf b).find? (·.key = key)).or ((entriesOf a).find? (·.key = key)) := by
    intro key
    rw [lookup_update (nodup_keys_constantsOf _), lookup_constantsOf, lookup_constantsOf]
  rw [hmerge]
  constructor
  · intro h key c hc d hd
    have hkey := hlookup key
    rw [← h, lookup_constantsOf, List.find?_append, hc, hd] at hkey
    exact Option.some.inj hkey
  · intro h
    refine ext_lookup (nodup_keys_constantsOf _) (keys_update_constantsOf _ _).symm fun key => ?_
    rw [hlookup, lookup_constantsOf, List.find?_append]
    cases hc : (entriesOf a).find? (·.key = key) with
    | none => exact (Option.or_none).symm
    | some c =>
      cases hd : (entriesOf b).find? (·.key = key) with
      | none => rfl
      | some d =>
        rw [h key c hc d hd]

/-- `LIMIT` of a file. -/
def limitChunk (value : String) : ChunkData :=
  ⟨some "a.py", [⟨some "LIMIT", some value, none⟩]⟩

/-- The first value stays in one batch, and the last one in two. -/
theorem fromChunks_append_ne : fromChunks ([limitChunk "1"] ++ [limitChunk "2"]) ≠
    merge String.toLower (fromChunks [limitChunk "1"]) (fromChunks [limitChunk "2"]) := by
  intro h
  have hvalues := congrArg (fun ledger => ledger.constants.map (·.2.value)) h
  exact absurd hvalues (by decide)

end EvidenceLedger

end ChunkHound
