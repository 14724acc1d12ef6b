import ChunkHound.NativeStore
import Mathlib.Logic.Function.Basic

/-!
# The content of a database file

What a DuckDB file holds, as far as compaction reads and writes it : the id sequences and
the tables, by name. A row is its values by column name. `columnsOf` is the column DDL of
`schema.rs`, which `setup_schema` and compaction share.

`Statement` lists the statements compaction executes on the new file with the old one
attached as `src`. Each commits by itself. A `CREATE` of a name that exists fails, and
`INSERT … SELECT` copies the columns it lists.

A database is well formed when it has what `setup_schema` creates, and rows with values in
their table's columns only. On such a database `setup_schema` changes nothing.
-/

namespace ChunkHound

inductive TableName
  | files
  | chunks
  | schemaVersion
  | embeddings (dims : ℕ)
  deriving DecidableEq, Repr

inductive SequenceName
  | filesIdSeq
  | chunksIdSeq
  | embeddingsIdSeq
  deriving DecidableEq, Repr

inductive Value
  | null
  | integer (n : ℤ)
  | text (s : String)
  | timestamp (t : ℚ)
  | vector (v : List F32)
  deriving DecidableEq, Repr

/-- The values of a row by column name. -/
abbrev Row := String → Value

/-- The columns a table is created with. -/
def columnsOf : TableName → List String
  | .files => ["id", "path", "name", "extension", "size", "modified_time", "content_hash",
      "language", "skip_reason", "created_at", "updated_at"]
  | .chunks => ["id", "file_id", "chunk_type", "symbol", "code", "start_line", "end_line",
      "start_byte", "end_byte", "language", "metadata", "created_at", "updated_at"]
  | .schemaVersion => ["version", "applied_at", "description"]
  | .embeddings _ => ["id", "chunk_id", "provider", "model", "embedding", "dims", "created_at"]

/-- A database file's content. `embeddingTables` lists the dims of the embedding tables in
catalog order. -/
structure DbImage where
  sequences : SequenceName → Option ℤ
  tables : TableName → Option (List Row)
  embeddingTables : List ℕ

namespace DbImage

/-- A file `Connection::open` has just created. -/
def empty : DbImage where
  sequences := fun _ => none
  tables := fun _ => none
  embeddingTables := []

/-- `SELECT COALESCE(MAX(id), 0)`. -/
def maxId (rows : List Row) : ℤ :=
  (rows.filterMap fun r => match r "id" with
    | .integer n => some n
    | _ => none).max?.getD 0

/-- `CREATE SEQUENCE name START start`. -/
def createSequence (img : DbImage) (name : SequenceName) (start : ℤ) : Option DbImage :=
  if (img.sequences name).isSome then none
  else some { img with sequences := Function.update img.sequences name (some start) }

/-- `CREATE TABLE name`. -/
def createTable (img : DbImage) (name : TableName) : Option DbImage :=
  if (img.tables name).isSome then none
  else some
    { img with
      tables := Function.update img.tables name (some [])
      embeddingTables := match name with
        | .embeddings dims => img.embeddingTables ++ [dims]
        | _ => img.embeddingTables }

/-- Insert rows into a table that exists. -/
def insert (img : DbImage) (name : TableName) (new : List Row) : Option DbImage :=
  (img.tables name).map fun rows =>
    { img with tables := Function.update img.tables name (some (rows ++ new)) }

/-- The values of the listed columns. -/
def select (cols : List String) (r : Row) : Row := fun c => if c ∈ cols then r c else .null

/-- The row `setup_schema` adds to `schema_version`. -/
def initialSchema : Row := fun c =>
  if c = "version" then .integer 1
  else if c = "description" then .text "Initial schema"
  else .null

/-- `INSERT INTO schema_version … WHERE NOT EXISTS (… version = 1)`. -/
def withVersion (rows : List Row) : List Row :=
  if rows.any (· "version" = .integer 1) then rows else rows ++ [initialSchema]

/-- `setup_schema` : create what does not exist. The indexes hold no data. -/
def setupSchema (img : DbImage) : DbImage where
  sequences := fun name => some ((img.sequences name).getD 1)
  tables
    | .files => some ((img.tables .files).getD [])
    | .chunks => some ((img.tables .chunks).getD [])
    | .schemaVersion => some (withVersion ((img.tables .schemaVersion).getD []))
    | .embeddings dims => img.tables (.embeddings dims)
  embeddingTables := img.embeddingTables

/-- A database `setup_schema` has run on, whose rows have values in its columns only. -/
structure WF (img : DbImage) : Prop where
  sequences : ∀ name, (img.sequences name).isSome
  files : (img.tables .files).isSome
  chunks : (img.tables .chunks).isSome
  version : ∃ rows, img.tables .schemaVersion = some rows ∧
    rows.any (· "version" = .integer 1) = true
  columns : ∀ name rows, img.tables name = some rows → ∀ r ∈ rows, ∀ c, c ∉ columnsOf name →
    r c = .null
  catalog : ∀ dims, dims ∈ img.embeddingTables ↔ (img.tables (.embeddings dims)).isSome

theorem setupSchema_of_wf {img : DbImage} (h : img.WF) : img.setupSchema = img := by
  obtain ⟨rows, hrows, hver⟩ := h.version
  have hseq : (fun name => some ((img.sequences name).getD 1)) = img.sequences := by
    funext name
    obtain ⟨n, hn⟩ := Option.isSome_iff_exists.1 (h.sequences name)
    rw [hn, Option.getD_some]
  have htab : img.setupSchema.tables = img.tables := by
    funext name
    cases name with
    | files =>
      obtain ⟨fs, hfs⟩ := Option.isSome_iff_exists.1 h.files
      simp [setupSchema, hfs]
    | chunks =>
      obtain ⟨cs, hcs⟩ := Option.isSome_iff_exists.1 h.chunks
      simp [setupSchema, hcs]
    | schemaVersion =>
      have hv : withVersion rows = rows := if_pos hver
      simp [setupSchema, hrows, hv]
    | embeddings dims => rfl
  show ({ sequences := _, tables := img.setupSchema.tables, embeddingTables := _ } : DbImage) = img
  rw [hseq, htab]

variable {cols : List String}

theorem select_of_null {r : Row} (h : ∀ c, c ∉ cols → r c = .null) :
    select cols r = r := by
  funext c
  unfold select
  split
  · rfl
  · rename_i hc
    exact (h c hc).symm

/-- A copy through every column of the table is the table. -/
theorem WF.map_select {img : DbImage} (h : img.WF) {name : TableName} {rows : List Row}
    (hrows : img.tables name = some rows) (hcols : columnsOf name ⊆ cols) :
    rows.map (select cols) = rows := by
  rw [List.map_congr_left (g := id), List.map_id]
  intro r hr
  exact select_of_null fun c hc => h.columns name rows hrows r hr c fun hm => hc (hcols hm)

/-- A new database once `setup_schema` has run. -/
theorem wf_setupSchema_empty : empty.setupSchema.WF where
  sequences := fun _ => rfl
  files := rfl
  chunks := rfl
  version := ⟨[initialSchema], rfl, rfl⟩
  columns := by
    intro name rows hrows r hr c hc
    cases name with
    | files =>
      obtain rfl := Option.some.inj hrows
      cases hr
    | chunks =>
      obtain rfl := Option.some.inj hrows
      cases hr
    | schemaVersion =>
      obtain rfl : [initialSchema] = rows := Option.some.inj hrows
      rw [List.mem_singleton.1 hr]
      simp only [columnsOf, List.mem_cons, List.not_mem_nil, or_false, not_or] at hc
      simp [initialSchema, hc]
    | embeddings dims => cases hrows
  catalog := by
    intro dims
    simp [setupSchema, empty]

end DbImage

/-! ## The statements of the copy -/

/-- A statement compaction executes on the new file, with the old one attached as `src`. -/
inductive Statement
  | createSequence (name : SequenceName) (start : ℤ)
  | createTable (name : TableName)
  /-- `INSERT INTO name (cols) SELECT cols FROM src.name`. -/
  | insertSelect (name : TableName) (cols : List String)
  /-- `INSERT INTO name SELECT * FROM src.name`. -/
  | insertSelectStar (name : TableName)
  /-- A `CREATE INDEX`, `DETACH` or `CHECKPOINT`, which changes no row. -/
  | other

/-- The content after a statement, `none` when the statement fails. -/
def Statement.apply (src img : DbImage) : Statement → Option DbImage
  | .createSequence name start => img.createSequence name start
  | .createTable name => img.createTable name
  | .insertSelect name cols => do
    let rows ← src.tables name
    img.insert name (rows.map (DbImage.select cols))
  | .insertSelectStar name => do
    let rows ← src.tables name
    img.insert name rows
  | .other => some img

end ChunkHound
