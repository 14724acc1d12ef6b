import ChunkHound.EvidenceLedger

/-!
# The entity index of a ledger

`add_fact` links a fact to its entities, and never unlinks it. A fact that is added again under its
id with other entities leaves the links of the old ones : `get_facts_for_entity` returns it for an
entity that it does not mention, and the ledger that `from_dict` rebuilds does not have these links.

`Built lower ok` are the ledgers that the operations build when a fact comes under an id that is
taken only with entities that `ok` admits after those of the fact it replaces. When they have at
least the same names, the index is exact (`indexExact_of_built`), and when they are the same,
`from_dict` gives back the ledger (`fromDict_toDict`).
-/

namespace ChunkHound.EvidenceLedger

open OrderedDict

/-! ## Serialization -/

/-- A dictionary of `to_dict`. A field is `none` when the key is missing. -/
structure ConstantDict where
  name : Option String
  filePath : Option String
  value : Option (Option String)
  type : Option (Option String)

/-- A fact as read from JSON : any key may be missing. -/
structure FactDict where
  factId : Option String
  statement : Option String
  filePath : Option String
  startLine : Option ℤ
  endLine : Option ℤ
  category : Option String
  confidence : Option String
  entities : Option (List String)
  clusterId : Option ℤ
  url : Option (Option String)
  sourceSection : Option (Option String)

structure ConflictDict where
  factIdA : Option String
  factIdB : Option String
  reason : Option String

structure LedgerDict where
  constants : Option (List (String × ConstantDict))
  facts : Option (List (String × FactDict))
  conflicts : Option (List ConflictDict)

/-- What loading raises. -/
inductive DictError
  | keyError (key : String)
  | valueError (value : String)
  deriving DecidableEq

def ConstantEntry.toDict (entry : ConstantEntry) : ConstantDict :=
  ⟨some entry.name, some entry.filePath, some entry.value, some entry.type⟩

def FactEntry.toDict (fact : FactEntry) : FactDict where
  factId := some fact.factId
  statement := some fact.statement
  filePath := some fact.filePath
  startLine := some fact.startLine
  endLine := some fact.endLine
  category := some fact.category
  confidence := some fact.confidence.value
  entities := some fact.entities
  clusterId := some fact.clusterId
  url := some fact.url
  sourceSection := some fact.sourceSection

def FactConflict.toDict (c : FactConflict) : ConflictDict :=
  ⟨some c.factIdA, some c.factIdB, some c.reason⟩

/-- The index is not written. -/
def toDict (ledger : EvidenceLedger) : LedgerDict where
  constants := some (ledger.constants.map fun e => (e.1, e.2.toDict))
  facts := some (ledger.facts.map fun e => (e.1, e.2.toDict))
  conflicts := some (ledger.conflicts.map FactConflict.toDict)

/-- `data[key]`. -/
def required {α : Type} (key : String) : Option α → Except DictError α
  | some v => .ok v
  | none => .error (.keyError key)

def ConstantDict.load (data : ConstantDict) : Except DictError ConstantEntry := do
  return {
    name := ← required "name" data.name
    filePath := ← required "file_path" data.filePath
    value := data.value.getD none
    type := data.type.getD none }

def loadConfidence (value : String) : Except DictError ConfidenceLevel :=
  match ConfidenceLevel.ofValue value with
  | some level => .ok level
  | none => .error (.valueError value)

def FactDict.load (data : FactDict) : Except DictError FactEntry := do
  return {
    factId := ← required "fact_id" data.factId
    statement := ← required "statement" data.statement
    filePath := ← required "file_path" data.filePath
    startLine := ← required "start_line" data.startLine
    endLine := ← required "end_line" data.endLine
    category := ← required "category" data.category
    confidence := ← loadConfidence (← required "confidence" data.confidence)
    entities := data.entities.getD []
    clusterId := data.clusterId.getD 0
    url := data.url.getD none
    sourceSection := data.sourceSection.getD none }

def ConflictDict.load (data : ConflictDict) : Except DictError FactConflict := do
  return {
    factIdA := ← required "fact_id_a" data.factIdA
    factIdB := ← required "fact_id_b" data.factIdB
    reason := ← required "reason" data.reason }

/-- The facts of the dictionary, whose keys are not read. -/
def loadFacts (data : LedgerDict) : Except DictError (List FactEntry) :=
  (values (data.facts.getD [])).mapM FactDict.load

/-- The index is built again from the facts. -/
def fromDict (lower : String → String) (data : LedgerDict) :
    Except DictError EvidenceLedger := do
  let constants ← (data.constants.getD []).mapM fun e => return (e.1, ← e.2.load)
  let facts ← loadFacts data
  let conflicts ← (data.conflicts.getD []).mapM ConflictDict.load
  return { addFacts lower empty facts with constants := update [] constants, conflicts }

/-- A dictionary that loads gives the facts that it has. -/
theorem fromDict_eq {lower : String → String} {data : LedgerDict} {ledger : EvidenceLedger}
    {facts : List FactEntry} (hfacts : loadFacts data = .ok facts)
    (h : fromDict lower data = .ok ledger) :
    ∃ constants conflicts,
      ledger = { addFacts lower empty facts with constants := update [] constants, conflicts } := by
  unfold fromDict at h
  cases hc : (data.constants.getD []).mapM fun e => (do return (e.1, ← e.2.load) :
      Except DictError (String × ConstantEntry)) with
  | error err =>
    rw [hc] at h
    exact nomatch h
  | ok constants =>
    rw [hc, hfacts] at h
    cases hconf : (data.conflicts.getD []).mapM ConflictDict.load with
    | error err =>
      rw [hconf] at h
      exact nomatch h
    | ok conflicts =>
      rw [hconf] at h
      exact ⟨constants, conflicts, (Except.ok.inj h).symm⟩

/-! ## Links -/

section Links

variable (lower : String → String)

/-- The normalised entities of a fact. -/
def names (fact : FactEntry) : List String := fact.entities.map (normalizeEntityName lower)

/-- The index links the fact of an id to the entity. -/
def Linked (index : List (String × EntityLink)) (entity factId : String) : Prop :=
  ∃ link, index.lookup entity = some link ∧ factId ∈ link.factIds

variable {lower}

variable {link : Option EntityLink}

theorem mem_linkTo {entity factId i : String} :
    i ∈ (linkTo entity factId link).factIds ↔ i ∈ (link.elim [] (·.factIds)) ∨ i = factId := by
  cases link with
  | none => simp [linkTo]
  | some existing =>
    unfold linkTo
    by_cases h : factId ∈ existing.factIds
    · simp only [if_pos h, Option.elim_some]
      exact ⟨Or.inl, fun hi => hi.elim id fun heq => heq ▸ h⟩
    · simp [if_neg h]

theorem nodup_linkTo {entity factId : String} (h : ∀ existing ∈ link, existing.factIds.Nodup) :
    (linkTo entity factId link).factIds.Nodup := by
  cases link with
  | none => exact List.nodup_singleton factId
  | some existing =>
    unfold linkTo
    by_cases hid : factId ∈ existing.factIds
    · simp only [if_pos hid]
      exact h existing rfl
    · simp only [if_neg hid, ← List.concat_eq_append]
      exact (h existing rfl).concat hid

variable {index : List (String × EntityLink)}

/-- One entity of a fact. -/
theorem linked_alter {name entity factId e i : String} :
    Linked (alter (linkTo name factId) entity index) e i ↔
      Linked index e i ∨ i = factId ∧ e = entity := by
  unfold Linked
  rw [lookup_alter]
  by_cases he : e = entity
  · subst he
    simp only [if_pos, Option.some.injEq, exists_eq_left', mem_linkTo]
    cases index.lookup e <;> simp
  · simp [he]

theorem linked_alterAll {factId e i : String} : ∀ {entities : List String}
    {index : List (String × EntityLink)},
    Linked (alterAll (normalizeEntityName lower) (linkTo · factId) index entities) e i ↔
      Linked index e i ∨ i = factId ∧ e ∈ entities.map (normalizeEntityName lower)
  | [], _ => by simp [alterAll]
  | entity :: entities, index => by
    rw [alterAll_cons, linked_alterAll, linked_alter, List.map_cons, List.mem_cons, or_assoc,
      and_or_left]

theorem linked_addLinks {fact : FactEntry} {e i : String} :
    Linked (addLinks lower index fact) e i ↔
      Linked index e i ∨ i = fact.factId ∧ e ∈ names lower fact :=
  linked_alterAll

end Links

/-! ## Ledgers that the operations build -/

/-- The facts have their ids as keys. -/
structure Keyed (facts : List (String × FactEntry)) : Prop where
  nodup : (keys facts).Nodup
  key : ∀ {id fact}, facts.lookup id = some fact → fact.factId = id

theorem Keyed.nil : Keyed [] := ⟨List.nodup_nil, nofun⟩

variable {facts : List (String × FactEntry)}

theorem Keyed.insert (h : Keyed facts) (fact : FactEntry) :
    Keyed (insert fact.factId fact facts) := by
  refine ⟨nodup_keys_alter h.nodup, fun {id f} hf => ?_⟩
  rw [lookup_insert] at hf
  split at hf
  · next heq =>
    obtain rfl := Option.some.inj hf
    exact heq.symm
  · exact h.key hf

theorem Keyed.mem_values (h : Keyed facts) {fact : FactEntry} :
    fact ∈ values facts ↔ facts.lookup fact.factId = some fact := by
  rw [mem_values_iff h.nodup]
  constructor
  · rintro ⟨id, hid⟩
    rwa [h.key hid]
  · exact fun h => ⟨_, h⟩

/-- No two facts have an id. -/
theorem Keyed.pairwise (h : Keyed facts) :
    (values facts).Pairwise fun f g => f.factId ≠ g.factId := by
  have hids : (values facts).map FactEntry.factId = keys facts := by
    unfold values keys
    rw [List.map_map]
    refine List.map_congr_left fun e he => ?_
    exact h.key ((lookup_eq_some_iff h.nodup).2 he)
  have hnodup := h.nodup
  rw [← hids] at hnodup
  exact List.pairwise_map.1 hnodup

section Built

variable (lower : String → String) (ok : FactEntry → FactEntry → Prop)

/-- What the operations build when `ok` admits each fact that replaces another. -/
inductive Built : EvidenceLedger → Prop
  | fromChunks (chunks : List ChunkData) : Built (fromChunks chunks)
  | addConstant {ledger : EvidenceLedger} (entry : ConstantEntry) :
      Built ledger → Built (ledger.addConstant entry)
  | addFact {ledger : EvidenceLedger} (fact : FactEntry) :
      Built ledger → (∀ g ∈ ledger.facts.lookup fact.factId, ok g fact) →
      Built (addFact lower ledger fact)
  | addConflicts {ledger : EvidenceLedger} (conflicts : List FactConflict) :
      Built ledger → Built { ledger with conflicts := ledger.conflicts ++ conflicts }
  | merge {ledger other : EvidenceLedger} : Built ledger → Built other →
      (∀ id, ∀ f ∈ ledger.facts.lookup id, ∀ g ∈ other.facts.lookup id, ok f g) →
      Built (merge lower ledger other)
  | replaceConstantsFromChunks {ledger : EvidenceLedger} (chunks : List ChunkData) :
      Built ledger → Built (replaceConstantsFromChunks lower ledger chunks)
  | fromDict {data : LedgerDict} {ledger : EvidenceLedger} {facts : List FactEntry} :
      loadFacts data = .ok facts → facts.Pairwise (fun f g => f.factId = g.factId → ok f g) →
      fromDict lower data = .ok ledger → Built ledger

variable {lower ok}

/-- A property of the facts and the index that a fact which `ok` admits keeps. -/
structure Keeps (lower : String → String) (ok : FactEntry → FactEntry → Prop)
    (I : List (String × FactEntry) → List (String × EntityLink) → Prop) : Prop where
  nil : I [] []
  add : ∀ {facts index} (fact : FactEntry), I facts index →
    (∀ g ∈ facts.lookup fact.factId, ok g fact) →
    I (insert fact.factId fact facts) (addLinks lower index fact)

variable {I : List (String × FactEntry) → List (String × EntityLink) → Prop}

theorem Keeps.addFacts (hI : Keeps lower ok I) : ∀ {fs : List FactEntry} {l : EvidenceLedger},
    I l.facts l.entityIndex →
    (∀ f ∈ fs, ∀ g ∈ l.facts.lookup f.factId, ok g f) →
    fs.Pairwise (fun f g => f.factId = g.factId → ok f g) →
    I (addFacts lower l fs).facts (addFacts lower l fs).entityIndex
  | [], _, h, _, _ => h
  | f :: fs, l, h, hold, hnew => by
    obtain ⟨hf, hfs⟩ := List.pairwise_cons.1 hnew
    refine hI.addFacts (l := addFact lower l f)
      (hI.add f h (hold f List.mem_cons_self)) (fun g hg g' hg' => ?_) hfs
    simp only [addFact, lookup_insert] at hg'
    split at hg'
    · next heq =>
      obtain rfl := Option.some.inj hg'
      exact hf g hg heq.symm
    · exact hold g (List.mem_cons_of_mem f hg) g' hg'

theorem keeps_keyed : Keeps lower ok fun facts _ => Keyed facts where
  nil := .nil
  add fact h _ := h.insert fact

/-- The facts of a ledger, added to an empty one. -/
theorem Keeps.addValues
    (hI : Keeps lower ok I) {facts : List (String × FactEntry)} (h : Keyed facts)
    {l : EvidenceLedger} (hl : I l.facts l.entityIndex)
    (hold : ∀ f ∈ values facts, ∀ g ∈ l.facts.lookup f.factId, ok g f) :
    I (EvidenceLedger.addFacts lower l (values facts)).facts
      (EvidenceLedger.addFacts lower l (values facts)).entityIndex :=
  hI.addFacts hl hold (h.pairwise.imp fun hne heq => absurd heq hne)

/-- The fact of an id is the last one that was added. -/
theorem lookup_addFacts (fs : List FactEntry) (id : String) : ∀ ledger : EvidenceLedger,
    (EvidenceLedger.addFacts lower ledger fs).facts.lookup id =
      (fs.reverse.find? (·.factId = id)).or (ledger.facts.lookup id) := by
  induction fs with
  | nil => exact fun _ => rfl
  | cons f fs ih =>
    intro ledger
    have hstep : (EvidenceLedger.addFacts lower ledger (f :: fs)).facts.lookup id =
        (fs.reverse.find? (·.factId = id)).or ((insert f.factId f ledger.facts).lookup id) :=
      ih (addFact lower ledger f)
    rw [hstep, lookup_insert, List.reverse_cons, List.find?_append, Option.or_assoc]
    by_cases h : id = f.factId
    · simp [h]
    · simp [h, Ne.symm h]

variable {ledger : EvidenceLedger}

theorem Built.keyed (h : Built lower ok ledger) : Keyed ledger.facts := by
  have hkeeps : Keeps lower (fun _ _ => True) fun facts _ => Keyed facts := keeps_keyed
  have hadd : ∀ {l : EvidenceLedger} (fs : List FactEntry), Keyed l.facts →
      Keyed (EvidenceLedger.addFacts lower l fs).facts := fun fs hl =>
    hkeeps.addFacts hl (fun _ _ _ _ => trivial) (List.pairwise_of_forall fun _ _ _ => trivial)
  induction h with
  | fromChunks chunks =>
    rw [fromChunks_eq]
    exact .nil
  | addConstant entry _ ih => exact ih
  | addFact fact _ _ ih => exact ih.insert fact
  | addConflicts conflicts _ ih => exact ih
  | merge _ _ _ _ _ => exact hadd _ (hadd _ .nil)
  | replaceConstantsFromChunks chunks _ _ =>
    refine hadd (l := EvidenceLedger.fromChunks chunks) _ ?_
    rw [fromChunks_eq]
    exact .nil
  | fromDict hfacts _ hdict =>
    obtain ⟨constants, conflicts, rfl⟩ := fromDict_eq hfacts hdict
    exact hadd (l := empty) _ .nil

/-- A property that each admitted fact keeps holds of every ledger that is built. -/
theorem Built.invariant
    (hI : Keeps lower ok I) (h : Built lower ok ledger) :
    I ledger.facts ledger.entityIndex := by
  induction h with
  | fromChunks chunks =>
    rw [fromChunks_eq]
    exact hI.nil
  | addConstant entry _ ih => exact ih
  | addFact fact _ hok ih => exact hI.add fact ih hok
  | addConflicts conflicts _ ih => exact ih
  | @merge ledger other hl ho hok _ _ =>
    have hfirst := hI.addValues (l := empty) hl.keyed hI.nil fun _ _ _ hg => nomatch hg
    refine hI.addValues ho.keyed hfirst fun f hf g hg => ?_
    rw [lookup_addFacts, Option.mem_def, Option.or_eq_some_iff] at hg
    obtain hg | ⟨-, hg⟩ := hg
    · have hmem : g ∈ values ledger.facts := List.mem_reverse.1 (List.mem_of_find?_eq_some hg)
      have hid : g.factId = f.factId := by simpa using List.find?_some hg
      exact hok f.factId g (hid ▸ hl.keyed.mem_values.1 hmem) f (ho.keyed.mem_values.1 hf)
    · exact nomatch hg
  | replaceConstantsFromChunks chunks hl _ =>
    refine hI.addValues hl.keyed ?_ fun _ _ _ hg => ?_
    · rw [fromChunks_eq]
      exact hI.nil
    · rw [fromChunks_eq] at hg
      exact nomatch hg
  | fromDict hfacts hok hdict =>
    obtain ⟨constants, conflicts, rfl⟩ := fromDict_eq hfacts hdict
    exact hI.addFacts (l := empty) hI.nil (fun _ _ _ hg => nomatch hg) hok

end Built

/-! ## The index of the entities -/

section Index

variable (lower : String → String)

/-- The fact that replaces another has its names. -/
def Covers (f g : FactEntry) : Prop := ∀ e ∈ names lower f, e ∈ names lower g

/-- The links are the facts with the name. -/
structure Linking (facts : List (String × FactEntry)) (index : List (String × EntityLink)) :
    Prop where
  keyed : Keyed facts
  nodup : ∀ {e link}, index.lookup e = some link → link.factIds.Nodup
  linked : ∀ {e i}, Linked index e i ↔ ∃ f ∈ facts.lookup i, e ∈ names lower f

/-- The facts of an entity are those with its name, each once. -/
def IndexExact (ledger : EvidenceLedger) : Prop :=
  ∀ entity, (getFactsForEntity lower ledger entity).Nodup ∧
    ∀ f, f ∈ getFactsForEntity lower ledger entity ↔
      f ∈ values ledger.facts ∧ normalizeEntityName lower entity ∈ names lower f

variable {lower}

theorem nodup_addLinks {fact : FactEntry} {entities : List String} :
    ∀ {index : List (String × EntityLink)},
    (∀ {e link}, index.lookup e = some link → link.factIds.Nodup) → ∀ {e link},
    (alterAll (normalizeEntityName lower) (linkTo · fact.factId) index entities).lookup e =
      some link → link.factIds.Nodup := by
  induction entities with
  | nil => exact fun h => h
  | cons entity entities ih =>
    intro index h e link hlink
    rw [alterAll_cons] at hlink
    refine ih (fun {e link} hlink => ?_) hlink
    rw [lookup_alter] at hlink
    split at hlink
    · obtain rfl := Option.some.inj hlink
      exact nodup_linkTo fun existing hex => h hex
    · exact h hlink

theorem keeps_linking : Keeps lower (Covers lower) (Linking lower) where
  nil := ⟨.nil, (nomatch ·), by simp [Linked]⟩
  add {facts index} fact h hok := by
    refine ⟨h.keyed.insert fact, nodup_addLinks h.nodup, fun {e i} => ?_⟩
    rw [linked_addLinks, h.linked, lookup_insert]
    by_cases hi : i = fact.factId
    · subst hi
      simp only [true_and, if_pos, Option.mem_some_iff, exists_eq_left']
      constructor
      · rintro (⟨g, hg, he⟩ | he)
        · exact hok g hg e he
        · exact he
      · exact Or.inr
    · simp [hi]

variable {ledger : EvidenceLedger}

theorem mem_getFactsForEntity {entity : String} {f : FactEntry} :
    f ∈ getFactsForEntity lower ledger entity ↔
      ∃ i, Linked ledger.entityIndex (normalizeEntityName lower entity) i ∧
        ledger.facts.lookup i = some f := by
  unfold getFactsForEntity Linked
  cases ledger.entityIndex.lookup (normalizeEntityName lower entity) with
  | none => simp
  | some link => simp [List.mem_filterMap]

/-- Links that are the facts with the name give the facts of each entity. -/
theorem Linking.indexExact
    (h : Linking lower ledger.facts ledger.entityIndex) : IndexExact lower ledger := by
  intro entity
  refine ⟨?_, fun f => ?_⟩
  · unfold getFactsForEntity
    cases hlink : ledger.entityIndex.lookup (normalizeEntityName lower entity) with
    | none => exact List.nodup_nil
    | some link =>
      refine (h.nodup hlink).filterMap fun i j f hi hj => ?_
      rw [← h.keyed.key hi, ← h.keyed.key hj]
  · rw [mem_getFactsForEntity, h.keyed.mem_values]
    constructor
    · rintro ⟨i, hi, hf⟩
      obtain ⟨g, hg, he⟩ := h.linked.1 hi
      obtain rfl : f = g := Option.some.inj (hf.symm.trans hg)
      rw [h.keyed.key hf]
      exact ⟨hf, he⟩
    · rintro ⟨hf, he⟩
      exact ⟨f.factId, h.linked.2 ⟨f, hf, he⟩, hf⟩

/-- The index of a ledger is exact when every fact that replaced another has at least its names. -/
theorem indexExact_of_built (lower : String → String) {ledger : EvidenceLedger}
    (h : Built lower (Covers lower) ledger) : IndexExact lower ledger :=
  (h.invariant keeps_linking).indexExact

/-- A statement of `a.py` under the id `f1`. -/
def factAbout (entities : List String) : FactEntry :=
  ⟨"f1", "retries are bounded", "a.py", 1, 2, "behavior", .definite, entities, 0, none, none⟩

theorem indexExact_of_built_widened : IndexExact id
    (addFact id (addFact id empty (factAbout ["client"])) (factAbout ["client", "retry"])) := by
  have hbuilt : Built id (Covers id) (addFact id empty (factAbout ["client"])) :=
    .addFact _ (.fromChunks []) fun _ hg => nomatch hg
  refine indexExact_of_built id (.addFact _ hbuilt fun g hg => ?_)
  obtain rfl : factAbout ["client"] = g := Option.some.inj hg
  unfold Covers
  decide

/-- `f1` stays linked to `client`, which it does not mention any more. -/
theorem exists_built_not_indexExact : ∃ ledger, Built id (fun _ _ => True) ledger ∧
    ¬ IndexExact id ledger := by
  have hbuilt : Built id (fun _ _ => True) (addFact id empty (factAbout ["client"])) :=
    .addFact _ (.fromChunks []) fun _ _ => trivial
  refine ⟨_, .addFact (factAbout ["retry"]) hbuilt fun _ _ => trivial, fun hexact => ?_⟩
  have hfact := ((hexact "client").2 (factAbout ["retry"])).1 (by decide)
  exact absurd hfact.2 (by decide)

end Index

/-! ## The round trip -/

section RoundTrip

variable {lower : String → String}

/-- The fact that replaces another has its entities. -/
def SameEntities (f g : FactEntry) : Prop := f.entities = g.entities

/-- The links are made from the facts in their order. -/
structure Faithful (lower : String → String) (facts : List (String × FactEntry))
    (index : List (String × EntityLink)) : Prop where
  linking : Linking lower facts index
  index_eq : index = (values facts).foldl (addLinks lower) []

theorem addFacts_eq (fs : List FactEntry) : ∀ ledger : EvidenceLedger,
    addFacts lower ledger fs = { ledger with
      facts := fs.foldl (fun d f => insert f.factId f d) ledger.facts
      entityIndex := fs.foldl (addLinks lower) ledger.entityIndex } := by
  induction fs with
  | nil => exact fun _ => rfl
  | cons f fs ih => exact fun ledger => ih (addFact lower ledger f)

/-- Entities that are linked stay as they are. -/
theorem alterAll_linkTo_eq_self {factId : String} {index : List (String × EntityLink)} :
    ∀ {entities : List String},
    (∀ e ∈ entities, Linked index (normalizeEntityName lower e) factId) →
    alterAll (normalizeEntityName lower) (linkTo · factId) index entities = index
  | [], _ => rfl
  | entity :: entities, h => by
    obtain ⟨link, hlink, hid⟩ := h entity List.mem_cons_self
    have hsame : linkTo entity factId (some link) = link := if_pos hid
    rw [alterAll_cons, alter_eq_self hsame hlink]
    exact alterAll_linkTo_eq_self fun e he => h e (List.mem_cons_of_mem entity he)

/-- The links that facts make depend on their ids and entities. -/
theorem foldl_addLinks_congr {fs gs : List FactEntry}
    (h : fs.map (fun f => (f.factId, f.entities)) = gs.map fun f => (f.factId, f.entities)) :
    fs.foldl (addLinks lower) [] = gs.foldl (addLinks lower) [] := by
  have hmap : ∀ fs : List FactEntry, fs.foldl (addLinks lower) [] =
      (fs.map fun f => (f.factId, f.entities)).foldl (fun index p =>
        alterAll (normalizeEntityName lower) (linkTo · p.1) index p.2) [] := by
    intro fs
    rw [List.foldl_map]
    rfl
  rw [hmap, h, ← hmap]

theorem keeps_faithful : Keeps lower SameEntities (Faithful lower) where
  nil := ⟨keeps_linking.nil, rfl⟩
  add {facts index} fact h hok := by
    refine ⟨keeps_linking.add fact h.linking fun g hg e he => ?_, ?_⟩
    · unfold names at he ⊢
      rwa [← hok g hg]
    · by_cases hid : fact.factId ∈ keys facts
      · obtain ⟨g, hg⟩ := mem_keys_iff.1 hid
        have hentities : g.entities = fact.entities := hok g hg
        have hlinked : ∀ e ∈ fact.entities,
            Linked index (normalizeEntityName lower e) fact.factId := fun e he =>
          h.linking.linked.2 ⟨g, hg, List.mem_map_of_mem (hentities ▸ he)⟩
        unfold addLinks
        rw [alterAll_linkTo_eq_self hlinked, h.index_eq]
        refine foldl_addLinks_congr (map_values_insert hg ?_).symm
        rw [h.linking.keyed.key hg, hentities]
      · rw [OrderedDict.insert, alter_of_not_mem hid, h.index_eq]
        unfold values
        rw [List.map_append, List.foldl_append]
        rfl

theorem Built.nodup_constants {ok : FactEntry → FactEntry → Prop} {ledger : EvidenceLedger}
    (h : Built lower ok ledger) : (keys ledger.constants).Nodup := by
  have hchunks : ∀ chunks : List ChunkData,
      (keys (EvidenceLedger.fromChunks chunks).constants).Nodup := by
    intro chunks
    rw [fromChunks_eq]
    exact nodup_keys_constantsOf _
  induction h with
  | fromChunks chunks => exact hchunks chunks
  | addConstant entry _ ih => exact nodup_keys_alter ih
  | addFact fact _ _ ih => exact ih
  | addConflicts conflicts _ ih => exact ih
  | merge _ _ _ ih _ => exact nodup_keys_update ih
  | replaceConstantsFromChunks chunks _ _ =>
    unfold EvidenceLedger.replaceConstantsFromChunks
    rw [addFacts_eq]
    exact hchunks chunks
  | fromDict hfacts _ hdict =>
    obtain ⟨constants, conflicts, rfl⟩ := fromDict_eq hfacts hdict
    exact nodup_keys_update List.nodup_nil

/-! ### Loading what was written -/

theorem mapM_map_ok {α β ε : Type} {f : α → β} {g : β → Except ε α} (h : ∀ x, g (f x) = .ok x) :
    ∀ xs : List α, (xs.map f).mapM g = .ok xs
  | [] => rfl
  | x :: xs => by
    rw [List.map_cons, List.mapM_cons, h, mapM_map_ok h xs]
    rfl

theorem FactEntry.load_toDict (fact : FactEntry) : fact.toDict.load = .ok fact := by
  have hconfidence : loadConfidence fact.confidence.value = .ok fact.confidence := by
    unfold loadConfidence
    rw [ConfidenceLevel.ofValue_value]
  have hload : fact.toDict.load = (do
      return { fact with confidence := ← loadConfidence fact.confidence.value }) := rfl
  rw [hload, hconfidence]
  rfl

theorem FactConflict.load_toDict (c : FactConflict) : c.toDict.load = .ok c := rfl

theorem loadFacts_toDict (ledger : EvidenceLedger) :
    loadFacts (toDict ledger) = .ok (values ledger.facts) := by
  unfold loadFacts toDict values
  rw [Option.getD_some, List.map_map]
  have hvalues : (Prod.snd ∘ fun e : String × FactEntry => (e.1, e.2.toDict)) =
      FactEntry.toDict ∘ Prod.snd := rfl
  rw [hvalues, ← List.map_map]
  exact mapM_map_ok FactEntry.load_toDict _

/-- What `from_dict` makes of a ledger that was written. -/
theorem fromDict_toDict_eq (ledger : EvidenceLedger) : fromDict lower (toDict ledger) =
    .ok { addFacts lower empty (values ledger.facts) with
      constants := update [] ledger.constants, conflicts := ledger.conflicts } := by
  have hconstants : ((toDict ledger).constants.getD []).mapM (fun e => (do
      return (e.1, ← e.2.load) : Except DictError (String × ConstantEntry))) =
      .ok ledger.constants :=
    mapM_map_ok (f := fun e : String × ConstantEntry => (e.1, e.2.toDict)) (fun _ => rfl) _
  have hconflicts : ((toDict ledger).conflicts.getD []).mapM ConflictDict.load =
      .ok ledger.conflicts :=
    mapM_map_ok FactConflict.load_toDict _
  unfold fromDict
  rw [hconstants, loadFacts_toDict, hconflicts]
  rfl

theorem Keyed.foldl_insert {facts : List (String × FactEntry)} (h : Keyed facts) :
    (values facts).foldl (fun d f => OrderedDict.insert f.factId f d) [] = facts := by
  calc (values facts).foldl (fun d f => OrderedDict.insert f.factId f d) []
    _ = facts.foldl (fun d e => OrderedDict.insert e.2.factId e.2 d) [] := List.foldl_map
    _ = update [] facts := List.foldl_ext _ _ _ fun d e he => by
        rw [h.key ((lookup_eq_some_iff h.nodup).2 he)]
    _ = facts := update_nil h.nodup

/-- A ledger in which every fact that replaced another has its entities is what `from_dict` makes
of its `to_dict`. -/
theorem fromDict_toDict (lower : String → String) {ledger : EvidenceLedger}
    (h : Built lower SameEntities ledger) : fromDict lower (toDict ledger) = .ok ledger := by
  obtain ⟨hlinking, hindex⟩ := h.invariant keeps_faithful
  rw [fromDict_toDict_eq, addFacts_eq, update_nil h.nodup_constants]
  refine congrArg Except.ok ?_
  show EvidenceLedger.mk ledger.constants _ _ ledger.conflicts = ledger
  rw [show empty.facts = [] from rfl, show empty.entityIndex = [] from rfl,
    hlinking.keyed.foldl_insert, ← hindex]

theorem fromDict_toDict_again : fromDict id (toDict
      (addFact id (addFact id empty (factAbout ["client"])) (factAbout ["client"]))) =
    .ok (addFact id (addFact id empty (factAbout ["client"])) (factAbout ["client"])) := by
  have hbuilt : Built id SameEntities (addFact id empty (factAbout ["client"])) :=
    .addFact _ (.fromChunks []) fun _ hg => nomatch hg
  refine fromDict_toDict id (.addFact _ hbuilt fun g hg => ?_)
  obtain rfl : factAbout ["client"] = g := Option.some.inj hg
  rfl

/-- The link of `client` to `f1` is not there after a round trip. -/
theorem exists_built_fromDict_toDict_ne : ∃ ledger, Built id (fun _ _ => True) ledger ∧
    fromDict id (toDict ledger) ≠ .ok ledger := by
  have hbuilt : Built id (fun _ _ => True) (addFact id empty (factAbout ["client"])) :=
    .addFact _ (.fromChunks []) fun _ _ => trivial
  refine ⟨_, .addFact (factAbout ["retry"]) hbuilt fun _ _ => trivial, fun h => ?_⟩
  rw [fromDict_toDict_eq] at h
  have hkeys := congrArg (fun ledger => keys ledger.entityIndex) (Except.ok.inj h)
  exact absurd hkeys (by decide)

end RoundTrip

end ChunkHound.EvidenceLedger
