import ChunkHound.DbImage

/-!
# The copy, statement by statement

`Copying src seqs created filled img` : the new database has the sequences `seqs` and the
tables `created`, of which `filled` hold what they hold in `src` and the others are empty.
Every statement of the copy extends one of the three lists. `CREATE` succeeds only for a
name that is not there yet, so no table is filled twice.

When all tables of `src` are filled the new database is well formed and holds the same
rows (`Copying.complete`).
-/

namespace ChunkHound

/-- How far the copy of `src` has come. -/
structure Copying (src : DbImage) (seqs : List SequenceName) (created filled : List TableName)
    (img : DbImage) : Prop where
  sequences : ∀ name, (img.sequences name).isSome ↔ name ∈ seqs
  full : ∀ name ∈ filled, (src.tables name).isSome ∧ img.tables name = src.tables name
  empty : ∀ name ∈ created, name ∉ filled → img.tables name = some []
  absent : ∀ name, name ∉ created → img.tables name = none
  catalog : ∀ dims, dims ∈ img.embeddingTables ↔ .embeddings dims ∈ created

namespace Copying

variable {src img img' : DbImage} {seqs : List SequenceName} {created filled : List TableName}

theorem empty_nil : Copying src [] [] [] .empty where
  sequences := by simp [DbImage.empty]
  full := by simp
  empty := by simp
  absent := fun _ _ => rfl
  catalog := by simp [DbImage.empty]

variable {name : TableName}

/-- A table of the new database was created. -/
theorem mem_created (h : Copying src seqs created filled img)
    (hs : (img.tables name).isSome) : name ∈ created := by
  by_contra hn
  rw [h.absent name hn] at hs
  cases hs

theorem not_mem_created (h : Copying src seqs created filled img)
    (hn : img.tables name = none) : name ∉ created ∧ name ∉ filled := by
  have hf : name ∉ filled := by
    intro hf
    obtain ⟨hs, heq⟩ := h.full name hf
    rw [← heq, hn] at hs
    cases hs
  refine ⟨fun hc => ?_, hf⟩
  rw [h.empty name hc hf] at hn
  cases hn

/-- `CREATE TABLE` succeeds for a table that is not there. -/
theorem tables_of_createTable
    (ha : (Statement.createTable name).apply src img = some img') : img.tables name = none := by
  by_contra hne
  rw [← ne_eq, Option.ne_none_iff_isSome] at hne
  simp [Statement.apply, DbImage.createTable, hne] at ha

theorem createSequence (h : Copying src seqs created filled img) {name : SequenceName}
    {start : ℤ} (ha : (Statement.createSequence name start).apply src img = some img') :
    Copying src (seqs ++ [name]) created filled img' := by
  simp only [Statement.apply, DbImage.createSequence] at ha
  split at ha
  · cases ha
  · obtain rfl := Option.some.inj ha
    refine ⟨fun n => ?_, h.full, h.empty, h.absent, h.catalog⟩
    by_cases hn : n = name
    · subst hn
      simp
    · simpa [Function.update_of_ne hn, hn] using h.sequences n

theorem createTable (h : Copying src seqs created filled img)
    (ha : (Statement.createTable name).apply src img = some img') :
    Copying src seqs (created ++ [name]) filled img' := by
  simp only [Statement.apply, DbImage.createTable] at ha
  split at ha
  · cases ha
  · rename_i hnone
    rw [Option.not_isSome_iff_eq_none] at hnone
    obtain ⟨hc, hf⟩ := h.not_mem_created hnone
    obtain rfl := Option.some.inj ha
    refine ⟨h.sequences, fun n hn => ?_, fun n hn hnf => ?_, fun n hn => ?_, fun dims => ?_⟩
    · have hne : n ≠ name := fun he => hf (he ▸ hn)
      simpa [Function.update_of_ne hne] using h.full n hn
    · by_cases hne : n = name
      · subst hne
        simp
      · have hn : n ∈ created := by simpa [hne] using hn
        simpa [Function.update_of_ne hne] using h.empty n hn hnf
    · obtain ⟨hn, hne⟩ : n ∉ created ∧ n ≠ name := by simpa using hn
      simpa [Function.update_of_ne hne] using h.absent n hn
    · have hcat := h.catalog dims
      cases name with
      | embeddings d => simp [hcat]
      | files => simp [hcat]
      | chunks => simp [hcat]
      | schemaVersion => simp [hcat]

/-- Inserting the rows of `src` fills a table that is empty. -/
theorem insert (h : Copying src seqs created filled img) {rows : List Row}
    (hrows : src.tables name = some rows) (hf : name ∉ filled)
    (ha : img.insert name rows = some img') :
    Copying src seqs created (filled ++ [name]) img' := by
  obtain ⟨before, hbefore, rfl⟩ := Option.map_eq_some_iff.1 ha
  have hc : name ∈ created := h.mem_created (by rw [hbefore]; rfl)
  obtain rfl : before = [] := Option.some.inj (hbefore.symm.trans (h.empty name hc hf))
  refine ⟨h.sequences, fun n hn => ?_, fun n hn hnf => ?_, fun n hn => ?_, h.catalog⟩
  · by_cases hne : n = name
    · subst hne
      simp [hrows]
    · have hn : n ∈ filled := by simpa [hne] using hn
      simpa [Function.update_of_ne hne] using h.full n hn
  · obtain ⟨hnf, hne⟩ : n ∉ filled ∧ n ≠ name := by simpa using hnf
    simpa [Function.update_of_ne hne] using h.empty n hn hnf
  · have hne : n ≠ name := fun he => hn (he ▸ hc)
    simpa [Function.update_of_ne hne] using h.absent n hn

theorem insertSelect (h : Copying src seqs created filled img) (hsrc : src.WF)
    {cols : List String} (hcols : columnsOf name ⊆ cols)
    (hf : name ∉ filled) (ha : (Statement.insertSelect name cols).apply src img = some img') :
    Copying src seqs created (filled ++ [name]) img' := by
  obtain ⟨rows, hrows, ha⟩ := Option.bind_eq_some_iff.1 ha
  rw [hsrc.map_select hrows hcols] at ha
  exact h.insert hrows hf ha

theorem insertSelectStar (h : Copying src seqs created filled img)
    (hf : name ∉ filled) (ha : (Statement.insertSelectStar name).apply src img = some img') :
    Copying src seqs created (filled ++ [name]) img' := by
  obtain ⟨rows, hrows, ha⟩ := Option.bind_eq_some_iff.1 ha
  exact h.insert hrows hf ha

theorem other (h : Copying src seqs created filled img)
    (ha : Statement.other.apply src img = some img') : Copying src seqs created filled img' := by
  obtain rfl : img = img' := Option.some.inj ha
  exact h

/-- A copy that has filled every table of a well-formed database holds the same rows. -/
theorem complete (hsrc : src.WF) (h : Copying src seqs created filled img)
    (hseqs : ∀ name, name ∈ seqs) (hfilled : ∀ name, (src.tables name).isSome → name ∈ filled)
    (hcreated : created ⊆ filled) : img.WF ∧ img.tables = src.tables := by
  have htab : img.tables = src.tables := by
    funext name
    by_cases hn : name ∈ filled
    · exact (h.full name hn).2
    · rw [h.absent name fun hc => hn (hcreated hc)]
      exact (Option.not_isSome_iff_eq_none.1 fun hs => hn (hfilled name hs)).symm
  refine ⟨⟨fun name => (h.sequences name).2 (hseqs name), ?_, ?_, ?_, ?_, fun dims => ?_⟩, htab⟩
  · rw [htab]
    exact hsrc.files
  · rw [htab]
    exact hsrc.chunks
  · rw [htab]
    exact hsrc.version
  · rw [htab]
    exact hsrc.columns
  · rw [h.catalog dims]
    constructor
    · intro hc
      rw [htab]
      exact (h.full _ (hcreated hc)).1
    · intro hs
      exact h.mem_created hs

end Copying

end ChunkHound
