import ChunkHound.StageThreads
import Mathlib

/-!
# Nothing is lost between the stages

While no stage has failed, every batch parsed so far has been written, or is in the hands of a
thread or in a channel, in order (`Flow`). A failure of any stage leaves its mark (`Broken`),
and a marked run returns an error.

`run_spec` : a run that returns a result has written every batch once and in order, with the
counts of all of them. One in which a stage failed returns an error. And as long as a thread
is left, some step other than a panic can be taken.
-/

namespace ChunkHound.Stages

open StepSystem

variable {φ π δ : Type*} {start : List (List φ)} {s s' : State φ π δ}

/-! ## What the threads hold -/

/-- The batch being parsed. -/
@[simp] def ParseThread.batch : ParseThread φ π → List (List φ)
  | .parsing batch => [batch]
  | _ => []

@[simp] def ParseThread.output : ParseThread φ π → List π
  | .sending parsed => [parsed]
  | _ => []

@[simp] def EmbedThread.input : EmbedThread π δ → List π
  | .received parsed | .embedding parsed => [parsed]
  | _ => []

@[simp] def EmbedThread.output : EmbedThread π δ → List (DbBatch π δ)
  | .sending batch => [batch]
  | _ => []

@[simp] def StoreThread.input : StoreThread π δ → List (DbBatch π δ)
  | .writing batch => [batch]
  | _ => []

/-- The batches made for the store, in order. -/
def State.stored (s : State φ π δ) : List (DbBatch π δ) :=
  s.written.map Written.batch ++ s.storeThread.input ++ s.storeQueue ++ s.embedThread.output

/-! ## Failures -/

/-- A failure that the caller sees after the joins. -/
def Broken (s : State φ π δ) : Prop :=
  s.error.isSome ∨ s.parseThread = .panicked ∨ (s.embedThread.done ∧ s.embedThread ≠ .ended) ∨
    (s.storeThread.done ∧ s.storeThread ≠ .ended)

theorem broken_setError (s : State φ π δ) (e : String) : (s.setError e).error.isSome := by
  cases h : s.error <;> simp [State.setError, h]

/-- A finished run returns an error when it is broken, and the counts when it is not. -/
theorem finished_result (hdone : s.finished) :
    (Broken s → ∃ e, s.result = some (.error e)) ∧ (¬ Broken s → s.result = some (.ok
      ⟨s.parsedFilesCount, s.embeddedChunks, s.chunksWritten, s.embeddingsWritten⟩)) := by
  have hthreads := hdone
  simp only [State.finished, Bool.and_eq_true] at hthreads
  obtain ⟨⟨hparse, hembed⟩, hstore⟩ := hthreads
  unfold State.result Broken
  rw [if_pos hdone]
  cases hp : s.parseThread <;> simp [hp, ParseThread.done] at hparse ⊢
  cases s.error <;> simp
  cases hm : s.embedThread <;> simp [hm, EmbedThread.done] at hembed ⊢
  cases ht : s.storeThread <;> simp [ht, StoreThread.done] at hstore ⊢

/-- A failure stays : the threads that have it do not go on. -/
theorem Broken.mono (h : Broken s) (herror : s.error.isSome → s'.error.isSome)
    (hparse : s.parseThread = .panicked → s'.parseThread = .panicked)
    (hembed : s.embedThread.done → s'.embedThread = s.embedThread)
    (hstore : s.storeThread.done → s'.storeThread = s.storeThread) : Broken s' := by
  rcases h with he | hp | ⟨hdone, hne⟩ | ⟨hdone, hne⟩
  · exact Or.inl (herror he)
  · exact Or.inr (Or.inl (hparse hp))
  · exact Or.inr (Or.inr (Or.inl (by rw [hembed hdone]; exact ⟨hdone, hne⟩)))
  · exact Or.inr (Or.inr (Or.inr (by rw [hstore hdone]; exact ⟨hdone, hne⟩)))

theorem Broken.parseMoves (h : Broken s) (hnot : s.parseThread ≠ .panicked)
    (herror : s'.error = s.error) (hembed : s'.embedThread = s.embedThread)
    (hstore : s'.storeThread = s.storeThread) : Broken s' :=
  h.mono (fun he => herror ▸ he) (absurd · hnot) (fun _ => hembed) fun _ => hstore

theorem Broken.embedMoves (h : Broken s) (hdone : ¬ s.embedThread.done)
    (herror : s'.error = s.error) (hparse : s'.parseThread = s.parseThread)
    (hstore : s'.storeThread = s.storeThread) : Broken s' :=
  h.mono (fun he => herror ▸ he) (fun hp => hparse.trans hp) (absurd · hdone) fun _ => hstore

theorem Broken.storeMoves (h : Broken s) (hdone : ¬ s.storeThread.done)
    (herror : s'.error = s.error) (hparse : s'.parseThread = s.parseThread)
    (hembed : s'.embedThread = s.embedThread) : Broken s' :=
  h.mono (fun he => herror ▸ he) (fun hp => hparse.trans hp) (fun _ => hembed) (absurd · hdone)

theorem broken_of_parse_panic (h : s.parseThread = .panicked) : Broken s := Or.inr (Or.inl h)

theorem ParseThread.eq_panicked {t : ParseThread φ π} (hdone : t.done) (hne : t ≠ .ended) :
    t = .panicked := by
  cases t with
  | ended => exact absurd rfl hne
  | panicked => rfl
  | head => cases hdone
  | parsing batch => cases hdone
  | sending parsed => cases hdone

theorem broken_of_embed (hdone : s.embedThread.done) (hne : s.embedThread ≠ .ended) : Broken s :=
  Or.inr (Or.inr (Or.inl ⟨hdone, hne⟩))

theorem broken_of_store (hdone : s.storeThread.done) (hne : s.storeThread ≠ .ended) : Broken s :=
  Or.inr (Or.inr (Or.inr ⟨hdone, hne⟩))

/-! ## The flow of batches -/

/-- Where the batches of `start` are while nothing has failed. -/
structure Flow (start : List (List φ)) (s : State φ π δ) : Prop where
  batches : start = s.parsed.map Prod.fst ++ s.parseThread.batch ++ s.batches
  parsed : s.parsed.map Prod.snd =
    s.stored.map DbBatch.parsed ++ s.embedThread.input ++ s.parseQueue ++ s.parseThread.output
  embedded : s.embeddedChunks = (s.stored.map DbBatch.embedded).sum
  parseEnded : s.parseThread = .ended → s.batches = []
  embedEnded : s.embedThread = .ended → s.parseThread = .ended ∧ s.parseQueue = []
  storeEnded : s.storeThread = .finishing ∨ s.storeThread = .ended →
    s.embedThread = .ended ∧ s.storeQueue = []

structure Inv (start : List (List φ)) (s : State φ π δ) : Prop where
  files : s.parsedFilesCount = (s.parsed.map fun b => b.1.length).sum
  chunks : s.chunksWritten = (s.written.map Written.chunks).sum
  embeddings : s.embeddingsWritten = (s.written.map Written.embeddings).sum
  failed : s.failed → Broken s
  flow : Broken s ∨ Flow start s

/-- The two states have parsed, written and counted the same. -/
structure SameCounts (s s' : State φ π δ) : Prop where
  files : s'.parsedFilesCount = s.parsedFilesCount
  chunks : s'.chunksWritten = s.chunksWritten
  embeddings : s'.embeddingsWritten = s.embeddingsWritten
  parsed : s'.parsed = s.parsed
  written : s'.written = s.written

/-- A step with a failure. -/
theorem Inv.broken (h : Inv start s) (hsame : SameCounts s s') (hb : Broken s') :
    Inv start s' where
  files := by
    rw [hsame.files, hsame.parsed]
    exact h.files
  chunks := by
    rw [hsame.chunks, hsame.written]
    exact h.chunks
  embeddings := by
    rw [hsame.embeddings, hsame.written]
    exact h.embeddings
  failed _ := hb
  flow := Or.inl hb

/-- A step that only moves batches. -/
theorem Inv.move (h : Inv start s) (hsame : SameCounts s s') (hfailed : s'.failed = s.failed)
    (hbroken : Broken s → Broken s') (hflow : Flow start s → Broken s' ∨ Flow start s') :
    Inv start s' where
  files := by
    rw [hsame.files, hsame.parsed]
    exact h.files
  chunks := by
    rw [hsame.chunks, hsame.written]
    exact h.chunks
  embeddings := by
    rw [hsame.embeddings, hsame.written]
    exact h.embeddings
  failed hf := hbroken (h.failed (hfailed ▸ hf))
  flow := h.flow.elim (fun hb => Or.inl (hbroken hb)) hflow

theorem inv_init (start : List (List φ)) : Inv start (init start : State φ π δ) where
  files := rfl
  chunks := rfl
  embeddings := rfl
  failed h := nomatch h
  flow := Or.inr
    { batches := rfl
      parsed := rfl
      embedded := rfl
      parseEnded := nofun
      embedEnded := nofun
      storeEnded := fun h => by rcases h with h | h <;> cases h }

theorem inv_parseNext (h : Inv start s) (hp : s.parseThread = .head) : Inv start s.parseNext := by
  have hnot : s.parseThread ≠ .panicked := by simp [hp]
  unfold State.parseNext
  split
  · rename_i hbatches
    refine h.move ⟨rfl, rfl, rfl, rfl, rfl⟩ rfl (·.parseMoves hnot rfl rfl rfl) fun hf => ?_
    refine Or.inr ⟨?_, ?_, hf.embedded, fun _ => hbatches, fun he => ⟨rfl, (hf.embedEnded he).2⟩,
      hf.storeEnded⟩
    · simpa [hp] using hf.batches
    · simpa [hp, State.stored] using hf.parsed
  · rename_i batch batches hbatches
    split
    · rename_i herror
      exact h.broken ⟨rfl, rfl, rfl, rfl, rfl⟩ (Or.inl herror)
    · refine h.move ⟨rfl, rfl, rfl, rfl, rfl⟩ rfl (·.parseMoves hnot rfl rfl rfl) fun hf => ?_
      refine Or.inr ⟨?_, ?_, hf.embedded, nofun, fun he => ?_, hf.storeEnded⟩
      · simpa [hp, hbatches] using hf.batches
      · simpa [hp, State.stored] using hf.parsed
      · exact nomatch hp.symm.trans (hf.embedEnded he).1

theorem inv_parseReturns (h : Inv start s) {batch : List φ} (hp : s.parseThread = .parsing batch)
    (r : Except String π) : Inv start (s.parseReturns batch r) := by
  cases r with
  | error e => exact h.broken ⟨rfl, rfl, rfl, rfl, rfl⟩ (Or.inl (broken_setError s e))
  | ok parsed =>
    have hbroken : Broken s → Broken (s.parseReturns batch (.ok parsed)) := fun hb =>
      hb.parseMoves (fun hpanic => nomatch hp.symm.trans hpanic) rfl rfl rfl
    refine ⟨?_, h.chunks, h.embeddings, fun hfail => hbroken (h.failed hfail),
      h.flow.elim (fun hb => Or.inl (hbroken hb)) fun hf => Or.inr ⟨?_, ?_, hf.embedded,
        nofun, fun he => ?_, hf.storeEnded⟩⟩
    · simp [State.parseReturns, h.files]
    · simpa [State.parseReturns, hp] using hf.batches
    · have hold := hf.parsed
      simp only [hp, ParseThread.output, List.append_nil] at hold
      simp only [State.parseReturns, List.map_append, List.map_cons, List.map_nil,
        ParseThread.output]
      rw [hold]
      rfl
    · exact nomatch hp.symm.trans (hf.embedEnded he).1

variable {parsed : π}

theorem inv_parseSend (h : Inv start s) (hp : s.parseThread = .sending parsed)
    (hs : s.parseSend parsed = some s') : Inv start s' := by
  have hnot : s.parseThread ≠ .panicked := by simp [hp]
  have hflow : Flow start s → s.embedThread ≠ .ended := fun hf he =>
    nomatch hp.symm.trans (hf.embedEnded he).1
  unfold State.parseSend at hs
  split at hs
  · rename_i hdone
    obtain rfl := Option.some.inj hs
    refine h.move ⟨rfl, rfl, rfl, rfl, rfl⟩ rfl (·.parseMoves hnot rfl rfl rfl) fun hf => ?_
    -- only an embed thread that failed is gone
    exact Or.inl (broken_of_embed hdone (hflow hf))
  · split at hs
    · obtain rfl := Option.some.inj hs
      refine h.move ⟨rfl, rfl, rfl, rfl, rfl⟩ rfl (·.parseMoves hnot rfl rfl rfl) fun hf => ?_
      refine Or.inr ⟨?_, ?_, hf.embedded, nofun, fun he => absurd he (hflow hf),
        hf.storeEnded⟩
      · simpa [hp] using hf.batches
      · simpa [hp, State.stored] using hf.parsed
    · cases hs

theorem inv_buildPool (h : Inv start s) (hm : s.embedThread = .building) :
    Inv start { s with embedThread := .receiving } := by
  have hdone : ¬ s.embedThread.done := by simp [hm, EmbedThread.done]
  refine h.move ⟨rfl, rfl, rfl, rfl, rfl⟩ rfl (·.embedMoves hdone rfl rfl rfl) fun hf => ?_
  refine Or.inr ⟨hf.batches, ?_, ?_, hf.parseEnded, nofun, fun ht => nomatch
    hm.symm.trans (hf.storeEnded ht).1⟩
  · simpa [hm, State.stored] using hf.parsed
  · simpa [hm, State.stored] using hf.embedded

theorem inv_embedReceive (h : Inv start s) (hm : s.embedThread = .receiving)
    (hs : s.embedReceive = some s') : Inv start s' := by
  have hdone : ¬ s.embedThread.done := by simp [hm, EmbedThread.done]
  have hstore : Flow start s → ¬ (s.storeThread = .finishing ∨ s.storeThread = .ended) :=
    fun hf ht => nomatch hm.symm.trans (hf.storeEnded ht).1
  unfold State.embedReceive at hs
  split at hs
  · rename_i parsed rest hqueue
    obtain rfl := Option.some.inj hs
    refine h.move ⟨rfl, rfl, rfl, rfl, rfl⟩ rfl (·.embedMoves hdone rfl rfl rfl) fun hf => ?_
    refine Or.inr ⟨hf.batches, ?_, ?_, hf.parseEnded, nofun, fun ht => absurd ht
      (hstore hf)⟩
    · simpa [hm, hqueue, State.stored] using hf.parsed
    · simpa [hm, State.stored] using hf.embedded
  · rename_i hqueue
    split at hs
    · rename_i hparse
      obtain rfl := Option.some.inj hs
      refine h.move ⟨rfl, rfl, rfl, rfl, rfl⟩ rfl (·.embedMoves hdone rfl rfl rfl) fun hf => ?_
      by_cases hended : s.parseThread = .ended
      · refine Or.inr ⟨hf.batches, ?_, ?_, hf.parseEnded, fun _ => ⟨hended, hqueue⟩,
          fun ht => absurd ht (hstore hf)⟩
        · simpa [hm, State.stored] using hf.parsed
        · simpa [hm, State.stored] using hf.embedded
      · exact Or.inl (broken_of_parse_panic (ParseThread.eq_panicked hparse hended))
    · cases hs

theorem inv_embedCheck (h : Inv start s) (hm : s.embedThread = .received parsed) :
    Inv start (s.embedCheck parsed) := by
  have hdone : ¬ s.embedThread.done := by simp [hm, EmbedThread.done]
  unfold State.embedCheck
  split
  · rename_i herror
    exact h.broken ⟨rfl, rfl, rfl, rfl, rfl⟩ (Or.inl herror)
  · refine h.move ⟨rfl, rfl, rfl, rfl, rfl⟩ rfl (·.embedMoves hdone rfl rfl rfl) fun hf => ?_
    refine Or.inr ⟨hf.batches, ?_, ?_, hf.parseEnded, nofun, fun ht => nomatch
      hm.symm.trans (hf.storeEnded ht).1⟩
    · simpa [hm, State.stored] using hf.parsed
    · simpa [hm, State.stored] using hf.embedded

theorem inv_embedReturns (h : Inv start s) (hm : s.embedThread = .embedding parsed)
    (r : Except String (δ × ℕ)) : Inv start (s.embedReturns parsed r) := by
  have hdone : ¬ s.embedThread.done := by simp [hm, EmbedThread.done]
  cases r with
  | error e => exact h.broken ⟨rfl, rfl, rfl, rfl, rfl⟩ (Or.inl (broken_setError s e))
  | ok r =>
    obtain ⟨rows, embedded⟩ := r
    refine h.move ⟨rfl, rfl, rfl, rfl, rfl⟩ rfl (·.embedMoves hdone rfl rfl rfl) fun hf => ?_
    refine Or.inr ⟨hf.batches, ?_, ?_, hf.parseEnded, nofun, fun ht => nomatch
      hm.symm.trans (hf.storeEnded ht).1⟩
    · simpa [hm, State.embedReturns, State.stored] using hf.parsed
    · have hsum := hf.embedded
      simp only [hm, State.stored, EmbedThread.output, List.append_nil] at hsum
      simp only [State.embedReturns, State.stored, EmbedThread.output, List.map_append,
        List.sum_append, List.map_cons, List.map_nil, List.sum_cons, List.sum_nil] at hsum ⊢
      omega

variable {batch : DbBatch π δ}

theorem inv_embedSend (h : Inv start s)
    (hm : s.embedThread = .sending batch) (hs : s.embedSend batch = some s') : Inv start s' := by
  have hdone : ¬ s.embedThread.done := by simp [hm, EmbedThread.done]
  have hstore : Flow start s → ¬ (s.storeThread = .finishing ∨ s.storeThread = .ended) :=
    fun hf ht => nomatch hm.symm.trans (hf.storeEnded ht).1
  unfold State.embedSend at hs
  split at hs
  · rename_i hgone
    obtain rfl := Option.some.inj hs
    refine h.move ⟨rfl, rfl, rfl, rfl, rfl⟩ rfl (·.embedMoves hdone rfl rfl rfl) fun hf => ?_
    -- only a store thread that failed is gone
    exact Or.inl (broken_of_store hgone fun ht => hstore hf (Or.inr ht))
  · split at hs
    · obtain rfl := Option.some.inj hs
      refine h.move ⟨rfl, rfl, rfl, rfl, rfl⟩ rfl (·.embedMoves hdone rfl rfl rfl) fun hf => ?_
      refine Or.inr ⟨hf.batches, ?_, ?_, hf.parseEnded, nofun, fun ht => absurd ht
        (hstore hf)⟩
      · simpa [hm, State.stored] using hf.parsed
      · simpa [hm, State.stored] using hf.embedded
    · cases hs

theorem inv_openStore (h : Inv start s) (ht : s.storeThread = .opening) :
    Inv start { s with storeThread := .receiving } := by
  have hdone : ¬ s.storeThread.done := by simp [ht, StoreThread.done]
  refine h.move ⟨rfl, rfl, rfl, rfl, rfl⟩ rfl (·.storeMoves hdone rfl rfl rfl) fun hf => ?_
  refine Or.inr ⟨hf.batches, ?_, ?_, hf.parseEnded, hf.embedEnded, fun hend => by rcases hend
    with hend | hend <;> cases hend⟩
  · simpa [ht, State.stored] using hf.parsed
  · simpa [ht, State.stored] using hf.embedded

theorem inv_storeReceive (h : Inv start s) (ht : s.storeThread = .receiving)
    (hs : s.storeReceive = some s') : Inv start s' := by
  have hdone : ¬ s.storeThread.done := by simp [ht, StoreThread.done]
  unfold State.storeReceive at hs
  split at hs
  · rename_i batch rest hqueue
    obtain rfl := Option.some.inj hs
    refine h.move ⟨rfl, rfl, rfl, rfl, rfl⟩ rfl (·.storeMoves hdone rfl rfl rfl) fun hf => ?_
    refine Or.inr ⟨hf.batches, ?_, ?_, hf.parseEnded, hf.embedEnded, fun hend => by rcases hend
      with hend | hend <;> cases hend⟩
    · simpa [ht, hqueue, State.stored] using hf.parsed
    · simpa [ht, hqueue, State.stored] using hf.embedded
  · rename_i hqueue
    split at hs
    · rename_i hembed
      obtain rfl := Option.some.inj hs
      refine h.move ⟨rfl, rfl, rfl, rfl, rfl⟩ rfl (·.storeMoves hdone rfl rfl rfl) fun hf => ?_
      by_cases hended : s.embedThread = .ended
      · refine Or.inr ⟨hf.batches, ?_, ?_, hf.parseEnded, hf.embedEnded,
          fun _ => ⟨hended, hqueue⟩⟩
        · simpa [ht, State.stored] using hf.parsed
        · simpa [ht, State.stored] using hf.embedded
      · exact Or.inl (broken_of_embed hembed hended)
    · cases hs

theorem inv_writeReturns (h : Inv start s)
    (ht : s.storeThread = .writing batch) (r : Except String (ℕ × ℕ)) :
    Inv start (s.writeReturns batch r) := by
  have hdone : ¬ s.storeThread.done := by simp [ht, StoreThread.done]
  cases r with
  | error e =>
    exact h.broken ⟨rfl, rfl, rfl, rfl, rfl⟩ (broken_of_store rfl fun he => by cases he)
  | ok r =>
    obtain ⟨chunks, embeddings⟩ := r
    have hbroken : Broken s → Broken (s.writeReturns batch (.ok (chunks, embeddings))) := fun hb =>
      hb.storeMoves hdone rfl rfl rfl
    refine ⟨h.files, ?_, ?_, fun hfail => hbroken (h.failed hfail),
      h.flow.elim (fun hb => Or.inl (hbroken hb)) fun hf => Or.inr ⟨hf.batches, ?_, ?_,
        hf.parseEnded, hf.embedEnded, fun hend => by rcases hend with hend | hend <;> cases hend⟩⟩
    · simp [State.writeReturns, h.chunks]
    · simp [State.writeReturns, h.embeddings]
    · simpa [State.writeReturns, State.stored, ht] using hf.parsed
    · simpa [State.writeReturns, State.stored, ht] using hf.embedded

theorem inv_storeFinishes (h : Inv start s) (ht : s.storeThread = .finishing) :
    Inv start { s with storeThread := .ended } := by
  have hdone : ¬ s.storeThread.done := by simp [ht, StoreThread.done]
  refine h.move ⟨rfl, rfl, rfl, rfl, rfl⟩ rfl (·.storeMoves hdone rfl rfl rfl) fun hf => ?_
  refine Or.inr ⟨hf.batches, ?_, ?_, hf.parseEnded, hf.embedEnded, fun _ => hf.storeEnded
    (Or.inl ht)⟩
  · simpa [ht, State.stored] using hf.parsed
  · simpa [ht, State.stored] using hf.embedded

theorem inv_step (h : Inv start s) {a : Action π δ} (hs : step s a = some s') : Inv start s' := by
  cases a with
  | parseNext =>
    simp only [step] at hs
    split at hs
    · rename_i hp
      obtain rfl := Option.some.inj hs
      exact inv_parseNext h hp
    · cases hs
  | parseReturns r =>
    simp only [step] at hs
    split at hs
    · rename_i batch hp
      obtain rfl := Option.some.inj hs
      exact inv_parseReturns h hp r
    · cases hs
  | parseSend =>
    simp only [step] at hs
    split at hs
    · rename_i parsed hp
      exact inv_parseSend h hp hs
    · cases hs
  | parsePanics =>
    simp only [step] at hs
    split at hs
    · cases hs
    · obtain rfl := Option.some.inj hs
      exact h.broken ⟨rfl, rfl, rfl, rfl, rfl⟩ (broken_of_parse_panic rfl)
  | buildPool r =>
    simp only [step] at hs
    split at hs
    · rename_i hm
      obtain rfl := Option.some.inj hs
      exact inv_buildPool h hm
    · obtain rfl := Option.some.inj hs
      exact h.broken ⟨rfl, rfl, rfl, rfl, rfl⟩ (broken_of_embed rfl fun he => by cases he)
    · cases hs
  | embedReceive =>
    simp only [step] at hs
    split at hs
    · rename_i hm
      exact inv_embedReceive h hm hs
    · cases hs
  | embedCheck =>
    simp only [step] at hs
    split at hs
    · rename_i parsed hm
      obtain rfl := Option.some.inj hs
      exact inv_embedCheck h hm
    · cases hs
  | embedReturns r =>
    simp only [step] at hs
    split at hs
    · rename_i parsed hm
      obtain rfl := Option.some.inj hs
      exact inv_embedReturns h hm r
    · cases hs
  | embedSend =>
    simp only [step] at hs
    split at hs
    · rename_i batch hm
      exact inv_embedSend h hm hs
    · cases hs
  | embedPanics =>
    simp only [step] at hs
    split at hs
    · cases hs
    · obtain rfl := Option.some.inj hs
      exact h.broken ⟨rfl, rfl, rfl, rfl, rfl⟩ (broken_of_embed rfl fun he => by cases he)
  | openStore r =>
    simp only [step] at hs
    split at hs
    · rename_i ht
      obtain rfl := Option.some.inj hs
      exact inv_openStore h ht
    · obtain rfl := Option.some.inj hs
      exact h.broken ⟨rfl, rfl, rfl, rfl, rfl⟩ (broken_of_store rfl fun he => by cases he)
    · cases hs
  | storeReceive =>
    simp only [step] at hs
    split at hs
    · rename_i ht
      exact inv_storeReceive h ht hs
    · cases hs
  | writeReturns r =>
    simp only [step] at hs
    split at hs
    · rename_i batch ht
      obtain rfl := Option.some.inj hs
      exact inv_writeReturns h ht r
    · cases hs
  | storeFinishes r =>
    simp only [step] at hs
    split at hs
    · rename_i ht
      obtain rfl := Option.some.inj hs
      exact inv_storeFinishes h ht
    · obtain rfl := Option.some.inj hs
      exact h.broken ⟨rfl, rfl, rfl, rfl, rfl⟩ (broken_of_store rfl fun he => by cases he)
    · cases hs
  | storePanics =>
    simp only [step] at hs
    split at hs
    · cases hs
    · obtain rfl := Option.some.inj hs
      exact h.broken ⟨rfl, rfl, rfl, rfl, rfl⟩ (broken_of_store rfl fun he => by cases he)

theorem inv_of_reach (h : Reach step (init start) s) : Inv start s :=
  h.invariant (inv_init start) fun _ _ _ hs _ hstep => inv_step hs hstep

/-! ## No deadlock -/

def Action.panics : Action π δ → Bool
  | .parsePanics | .embedPanics | .storePanics => true
  | _ => false

/-- Some step other than a panic can be taken. -/
def CanStep (s : State φ π δ) : Prop := ∃ a, a.panics = false ∧ (step s a).isSome

/-- The store thread waits only for a message that may still come. -/
theorem canStep_store (hdone : s.storeThread.done = false)
    (hmessage : s.storeQueue ≠ [] ∨ s.embedThread.done) : CanStep s := by
  cases ht : s.storeThread with
  | opening => exact ⟨.openStore (.ok ()), rfl, by simp [step, ht]⟩
  | receiving =>
    refine ⟨.storeReceive, rfl, ?_⟩
    simp only [step, ht, State.storeReceive]
    split
    · rfl
    · rename_i hqueue
      rw [if_pos (hmessage.resolve_left fun hne => hne hqueue)]
      rfl
  | writing batch => exact ⟨.writeReturns (.error ""), rfl, by simp [step, ht]⟩
  | finishing => exact ⟨.storeFinishes (.ok ()), rfl, by simp [step, ht]⟩
  | ended => simp [ht, StoreThread.done] at hdone
  | failed message => simp [ht, StoreThread.done] at hdone
  | panicked => simp [ht, StoreThread.done] at hdone

/-- The embed thread waits for a message, or for the store thread to make room. -/
theorem canStep_embed (hdone : s.embedThread.done = false)
    (hmessage : s.parseQueue ≠ [] ∨ s.parseThread.done) : CanStep s := by
  cases hm : s.embedThread with
  | building => exact ⟨.buildPool (.ok ()), rfl, by simp [step, hm]⟩
  | receiving =>
    refine ⟨.embedReceive, rfl, ?_⟩
    simp only [step, hm, State.embedReceive]
    split
    · rfl
    · rename_i hqueue
      rw [if_pos (hmessage.resolve_left fun hne => hne hqueue)]
      rfl
  | received parsed => exact ⟨.embedCheck, rfl, by simp [step, hm]⟩
  | embedding parsed => exact ⟨.embedReturns (.error ""), rfl, by simp [step, hm]⟩
  | sending batch =>
    by_cases hstep : (s.embedSend batch).isSome
    · exact ⟨.embedSend, rfl, by simpa [step, hm] using hstep⟩
    · simp only [State.embedSend] at hstep
      split at hstep
      · simp at hstep
      · rename_i hstore
        split at hstep
        · simp at hstep
        · rename_i hfull
          -- a full channel is not empty
          refine canStep_store (by simpa using hstore) (Or.inl fun hnil => hfull ?_)
          simp [hnil, storeCapacity]
  | ended => simp [hm, EmbedThread.done] at hdone
  | failed message => simp [hm, EmbedThread.done] at hdone
  | panicked => simp [hm, EmbedThread.done] at hdone

theorem canStep_of_not_finished (h : s.finished = false) : CanStep s := by
  by_cases hparse : s.parseThread.done
  · by_cases hembed : s.embedThread.done
    · refine canStep_store ?_ (Or.inr hembed)
      simpa [State.finished, hparse, hembed] using h
    · exact canStep_embed (by simpa using hembed) (Or.inr hparse)
  · cases hp : s.parseThread with
    | head => exact ⟨.parseNext, rfl, by simp [step, hp]⟩
    | parsing batch => exact ⟨.parseReturns (.error ""), rfl, by simp [step, hp]⟩
    | sending parsed =>
      by_cases hstep : (s.parseSend parsed).isSome
      · exact ⟨.parseSend, rfl, by simpa [step, hp] using hstep⟩
      · simp only [State.parseSend] at hstep
        split at hstep
        · simp at hstep
        · rename_i hembed
          split at hstep
          · simp at hstep
          · rename_i hfull
            refine canStep_embed (by simpa using hembed) (Or.inl fun hnil => hfull ?_)
            simp [hnil, parseCapacity]
    | ended => simp [hp, ParseThread.done] at hparse
    | panicked => simp [hp, ParseThread.done] at hparse

/-! ## The run -/

/-- A run that returns a result has parsed and written every batch, once and in order, and
reports the sums of their counts. A run in which a stage failed returns an error, and no run
gets stuck. -/
theorem run_spec (h : Reach step (init start) s) :
    (∀ outcome, s.result = some (.ok outcome) →
      s.parsed.map Prod.fst = start ∧
      s.written.map (fun w => w.batch.parsed) = s.parsed.map Prod.snd ∧
      outcome.parsedFiles = (start.map List.length).sum ∧
      outcome.embeddedChunks = (s.written.map fun w => w.batch.embedded).sum ∧
      outcome.chunksWritten = (s.written.map Written.chunks).sum ∧
      outcome.embeddingsWritten = (s.written.map Written.embeddings).sum) ∧
    (s.failed → s.finished → ∃ e, s.result = some (.error e)) ∧
    (s.finished = false → CanStep s) := by
  have hinv := inv_of_reach h
  refine ⟨fun outcome hok => ?_, fun hfail hdone => (finished_result hdone).1 (hinv.failed hfail),
    canStep_of_not_finished⟩
  have hdone : s.finished := by
    by_contra hnot
    rw [State.result, if_neg hnot] at hok
    cases hok
  have hgood : ¬ Broken s := fun hb => by
    obtain ⟨e, he⟩ := (finished_result hdone).1 hb
    rw [he] at hok
    cases hok
  rw [(finished_result hdone).2 hgood] at hok
  obtain rfl := Except.ok.inj (Option.some.inj hok)
  have hf := hinv.flow.resolve_left hgood
  simp only [State.finished, Bool.and_eq_true] at hdone
  have hstore : s.storeThread = .ended := by
    by_contra hne
    exact hgood (broken_of_store hdone.2 hne)
  obtain ⟨hembed, hstoreQueue⟩ := hf.storeEnded (Or.inr hstore)
  obtain ⟨hparse, hparseQueue⟩ := hf.embedEnded hembed
  have hstored : s.stored = s.written.map Written.batch := by
    simp [State.stored, hstore, hstoreQueue, hembed]
  have hbatches : start = s.parsed.map Prod.fst := by
    simpa [hparse, hf.parseEnded hparse] using hf.batches
  refine ⟨hbatches.symm, ?_, ?_, ?_, hinv.chunks, hinv.embeddings⟩
  · have hparsed := hf.parsed
    rw [hstored] at hparsed
    simpa [hembed, hparseQueue, hparse, Function.comp_def] using hparsed.symm
  · rw [hbatches]
    simpa [Function.comp_def] using hinv.files
  · have hcount := hf.embedded
    rw [hstored] at hcount
    simpa [Function.comp_def] using hcount

/-- One batch of two files, written. -/
theorem run_spec_oneBatch : ∃ s : State String ℕ ℕ,
    s.result = some (.ok ⟨2, 3, 3, 3⟩) ∧
      s.written.map (fun w => w.batch.parsed) = s.parsed.map Prod.snd := by
  have hr : Reach step (init [["a.py", "b.py"]]) _ :=
    Reach.of_execute [.parseNext, .parseReturns (.ok 7), .parseSend, .parseNext,
      .buildPool (.ok ()), .embedReceive, .embedCheck, .embedReturns (.ok (5, 3)), .embedSend,
      .embedReceive, .openStore (.ok ()), .storeReceive, .writeReturns (.ok (3, 3)),
      .storeReceive, .storeFinishes (.ok ())] rfl
  exact ⟨_, rfl, ((run_spec hr).1 _ rfl).2.1⟩

end ChunkHound.Stages
