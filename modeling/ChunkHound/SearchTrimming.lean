import Mathlib.Data.List.Basic
import Mathlib.Data.Int.Init

/-!
# Trimming a search response

`execute_tool` renders a page of search results as markdown. While the text is over
`MAX_RESPONSE_TOKENS` it drops the last quarter of the results, and where one result alone is over,
it cuts the content of that, less and less of it, since a fence grows with the backticks in it.

A response shows a prefix of its page, never an empty one of a page that is not, points to what it
left out, and fits, unless all content of its one result is gone (`searchResponse_spec`). So a
client that follows `next_offset` sees every result once (`shownFrom_eq`).
-/

namespace ChunkHound.SearchTool

/-! ## Rendering -/

abbrev Text := List Char

/-- What a response shows of a result. The similarity is read only to be rounded. -/
structure SearchResult (σ : Type*) where
  filePath : Option Text
  startLine : Option ℤ
  endLine : Option ℤ
  content : Option Text
  symbol : Option Text
  name : Option Text
  similarity : Option σ
  language : Option Text

/-- The pagination record. -/
structure Pagination where
  offset : Option ℤ
  pageSize : Option ℤ
  hasMore : Option Bool
  total : Option ℤ
  nextOffset : Option ℤ

/-- `x or default`, where an empty text counts as none. -/
def orElse (x : Option Text) (fallback : Text) : Text :=
  match x with
  | some [] => fallback
  | some t => t
  | none => fallback

def backtick : Char := Char.ofNat 96

/-- The longest run of backticks, where one of `run` backticks is open. -/
def maxRun : ℕ → Text → ℕ
  | run, [] => run
  | run, c :: cs => if c = backtick then maxRun (run + 1) cs else max run (maxRun 0 cs)

def digits (n : ℤ) : Text := (toString n).toList

/-- The words of a heading behind the path : the lines, the symbol and the score. -/
def headingWords {σ : Type*} (percent : σ → ℤ) (semantic : Bool) (r : SearchResult σ) :
    List Text :=
  let symbol := orElse r.symbol (orElse r.name [])
  let lines := match r.startLine with
    | none => []
    | some start =>
      match r.endLine with
      | some stop =>
        if stop = start then ['L' :: digits start]
        else ['L' :: digits start ++ ['–', 'L'] ++ digits stop]
      | none => ['L' :: digits start]
  let named := if symbol = [] then [] else [['—', ' '] ++ symbol]
  let score := match r.similarity with
    | some s => if semantic then [['('] ++ digits (percent s) ++ ['%', ')']] else []
    | none => []
  lines ++ named ++ score

/-- A result as markdown. -/
def formatResult {σ : Type*} (percent : σ → ℤ) (semantic : Bool) (r : SearchResult σ) : Text :=
  let content := orElse r.content []
  let lang := orElse r.language []
  let langHint := if lang = "unknown".toList then [] else lang
  let path := "## ".toList ++ [backtick] ++ orElse r.filePath "unknown".toList ++ [backtick]
  let heading := [' '].intercalate (path :: headingWords percent semantic r)
  let fence := List.replicate (max 3 (maxRun 0 content + 1)) backtick
  heading ++ (['\n', '\n'] ++ fence ++ langHint ++ ['\n']) ++ content ++ (['\n'] ++ fence)

/-- `format_search_results_markdown`. -/
def formatSearchResultsMarkdown {σ : Type*} (percent : σ → ℤ) (results : List (SearchResult σ))
    (pagination : Pagination) (semantic : Bool) : Text :=
  if results = [] then "No results found.".toList
  else
    let body := "\n\n---\n\n".toList.intercalate (results.map (formatResult percent semantic))
    let offset := pagination.offset.getD 0
    let hasMore := pagination.hasMore.getD false
    let pageSize := pagination.pageSize.getD results.length
    let startNum := digits (offset + 1)
    let endNum := digits (offset + results.length)
    let footer := match pagination.total with
      | some total =>
        if pageSize = 0 then "Results ".toList ++ startNum ++ ['–'] ++ endNum
        else
          let totalPages := max 1 (-((-total).fdiv pageSize))
          let currentPage := offset.fdiv pageSize + 1
          "Page ".toList ++ digits currentPage ++ " of ".toList ++ digits totalPages ++
            " (results ".toList ++ startNum ++ ['–'] ++ endNum ++ " of ".toList ++ digits total ++
            [')']
      | none => "Results ".toList ++ startNum ++ ['–'] ++ endNum
    let footer := match pagination.nextOffset with
      | some next => if hasMore then footer ++ " | next_offset=".toList ++ digits next else footer
      | none => footer
    body ++ "\n\n---\n".toList ++ footer

/-! ## Trimming -/

def maxResponseTokens : ℕ := 20000

/-- `estimate_tokens`. -/
def estimateTokens (text : Text) : ℕ := text.length / 3

def truncationMark : Text := "\n\n[... truncated ...]".toList

section Trim

variable {σ : Type*} (percent : σ → ℤ) (semantic : Bool)

/-- Drop results until the text fits or one is left. -/
def trimResults (results : List (SearchResult σ)) (pagination : Pagination) :
    List (SearchResult σ) × Pagination :=
  let md := formatSearchResultsMarkdown percent results pagination semantic
  if _ : 1 < results.length ∧ maxResponseTokens < estimateTokens md then
    let kept := results.take (results.length - max 1 (results.length / 4))
    trimResults kept
      { pagination with
        hasMore := some true
        nextOffset := some (pagination.offset.getD 0 + kept.length) }
  else (results, pagination)
termination_by results.length
decreasing_by
  simp only [List.length_take]
  omega

/-- The result with the first characters of its content. -/
def cutContent (r : SearchResult σ) (chars : ℕ) : SearchResult σ :=
  { r with content := some ((orElse r.content []).take chars ++ truncationMark) }

/-- Take characters away until the text fits or none is left. -/
def shrinkContent (r : SearchResult σ) (pagination : Pagination) (chars : ℕ) : ℕ :=
  let tokens := estimateTokens
    (formatSearchResultsMarkdown percent [cutContent r chars] pagination semantic)
  if _ : maxResponseTokens < tokens ∧ 0 < chars then
    shrinkContent r pagination (chars - (tokens - maxResponseTokens) * 3 - 1)
  else chars
termination_by chars

/-- What is rendered in the end. -/
def searchPage (results : List (SearchResult σ)) (pagination : Pagination) :
    List (SearchResult σ) × Pagination :=
  let (results, pagination) := trimResults percent semantic results pagination
  match results with
  | [] => (results, pagination)
  | r :: _ =>
    let md := formatSearchResultsMarkdown percent results pagination semantic
    if maxResponseTokens < estimateTokens md then
      let chars := shrinkContent percent semantic r pagination (maxResponseTokens * 3 - 300)
      ([cutContent r chars], pagination)
    else (results, pagination)

/-- The search branch of `execute_tool`, with the warnings in front. -/
def executeSearch (results : List (SearchResult σ)) (pagination : Pagination)
    (warnings : List Text) : Text :=
  let (shown, pagination) := searchPage percent semantic results pagination
  let md := formatSearchResultsMarkdown percent shown pagination semantic
  if warnings = [] then md
  else
    ['\n'].intercalate (warnings.map fun w => "> **Warning:** ".toList ++ w) ++ ['\n', '\n'] ++ md

end Trim

/-! ## What a response shows -/

section Shown

variable {σ : Type*} {percent : σ → ℤ} {semantic : Bool}

/-- The pagination of a response points to what it leaves out. -/
def PointsAfter (pagination pagination' : Pagination) (page : List (SearchResult σ)) (shown : ℕ) :
    Prop :=
  if shown < page.length then
    pagination' = { pagination with
      hasMore := some true
      nextOffset := some (pagination.offset.getD 0 + shown) }
  else pagination' = pagination

variable {pagination pagination' : Pagination}

/-- One round keeps a prefix that is not empty. -/
theorem pointsAfter_trim {page : List (SearchResult σ)}
    {kept n : ℕ} (hkept : kept < page.length) (hn : n ≤ kept)
    (h : PointsAfter { pagination with
      hasMore := some true
      nextOffset := some (pagination.offset.getD 0 + kept) } pagination' (page.take kept) n) :
    PointsAfter pagination pagination' page n := by
  have hlen : (page.take kept).length = kept := List.length_take_of_le (Nat.le_of_lt hkept)
  unfold PointsAfter at h ⊢
  rw [hlen] at h
  rw [if_pos (Nat.lt_of_le_of_lt hn hkept)]
  split at h
  · exact h
  · obtain rfl : n = kept := by omega
    exact h

/-- The first loop leaves a prefix. -/
theorem trimResults_spec (results : List (SearchResult σ)) (pagination : Pagination) :
    ∃ n, n ≤ results.length ∧ (results ≠ [] → 0 < n) ∧
      (trimResults percent semantic results pagination).1 = results.take n ∧
      PointsAfter pagination (trimResults percent semantic results pagination).2 results n ∧
      (1 < n → estimateTokens (formatSearchResultsMarkdown percent
        (trimResults percent semantic results pagination).1
        (trimResults percent semantic results pagination).2 semantic) ≤ maxResponseTokens) := by
  induction results, pagination using trimResults.induct percent semantic with
  | case1 results pagination md hover kept ih =>
    have hstep : trimResults percent semantic results pagination =
        trimResults percent semantic kept
          { pagination with
            hasMore := some true
            nextOffset := some (pagination.offset.getD 0 + kept.length) } := by
      rw [trimResults, dif_pos hover]
    rw [hstep]
    obtain ⟨n, hn, hpos, hshown, hafter, hfits⟩ := ih
    have hlen : kept.length = results.length - max 1 (results.length / 4) := by
      rw [List.length_take]
      omega
    have hne : kept ≠ [] := List.ne_nil_of_length_pos (by omega)
    have hkept : kept = results.take kept.length := by rw [hlen]
    refine ⟨n, by omega, fun _ => hpos hne, ?_, ?_, hfits⟩
    · rw [hshown]
      show (results.take (results.length - max 1 (results.length / 4))).take n = _
      rw [List.take_take, Nat.min_eq_left (by omega)]
    · have hlt : kept.length < results.length := by omega
      refine pointsAfter_trim hlt hn ?_
      rw [← hkept]
      exact hafter
  | case2 results pagination md hfits =>
    have hstep : trimResults percent semantic results pagination = (results, pagination) := by
      rw [trimResults, dif_neg hfits]
    rw [hstep]
    refine ⟨results.length, Nat.le_refl _, List.length_pos_iff.2, by simp, by simp [PointsAfter],
      fun hlt => ?_⟩
    by_contra hover
    exact hfits ⟨hlt, Nat.lt_of_not_le hover⟩

/-- The second loop ends where the text fits or no content is left. -/
theorem shrinkContent_spec (r : SearchResult σ) (pagination : Pagination) (chars : ℕ) :
    estimateTokens (formatSearchResultsMarkdown percent
        [cutContent r (shrinkContent percent semantic r pagination chars)] pagination semantic) ≤
      maxResponseTokens ∨ shrinkContent percent semantic r pagination chars = 0 := by
  induction chars using shrinkContent.induct percent semantic r pagination with
  | case1 chars tokens hover ih =>
    rw [shrinkContent, dif_pos hover]
    exact ih
  | case2 chars tokens hfits =>
    rw [shrinkContent, dif_neg hfits]
    by_cases h : maxResponseTokens < tokens
    · exact Or.inr (Nat.eq_zero_of_not_pos fun hpos => hfits ⟨h, hpos⟩)
    · exact Or.inl (Nat.le_of_not_lt h)

/-- What a page of results is rendered to. -/
structure Response (percent : σ → ℤ) (semantic : Bool) (page : List (SearchResult σ))
    (pagination : Pagination) (shown : List (SearchResult σ)) (pagination' : Pagination) (n : ℕ) :
    Prop where
  le : n ≤ page.length
  pos : page ≠ [] → 0 < n
  front : shown = page.take n ∨
    n = 1 ∧ ∃ r chars, page.head? = some r ∧ shown = [cutContent r chars]
  after : PointsAfter pagination pagination' page n
  fits : estimateTokens (formatSearchResultsMarkdown percent shown pagination' semantic) ≤
    maxResponseTokens ∨ ∃ r, page.head? = some r ∧ shown = [cutContent r 0]

/-- The text shows the results in their order, each with its path and its content, and ends with
the offset to go on from where there is more. -/
structure Rendered (percent : σ → ℤ) (semantic : Bool) (shown : List (SearchResult σ))
    (pagination : Pagination) (text : Text) : Prop where
  none : shown = [] → text = "No results found.".toList
  some : shown ≠ [] → ∃ footer, text =
    "\n\n---\n\n".toList.intercalate (shown.map (formatResult percent semantic)) ++
      "\n\n---\n".toList ++ footer ∧
    (pagination.hasMore = some true → ∀ next, pagination.nextOffset = some next →
      " | next_offset=".toList ++ digits next <:+ footer)
  results : ∀ r ∈ shown, orElse r.filePath "unknown".toList <:+: formatResult percent semantic r ∧
    orElse r.content [] <:+: formatResult percent semantic r

/-- The first word is in front of the others. -/
theorem isPrefix_intercalate (word : Text) (words : List Text) :
    word <+: [' '].intercalate (word :: words) := by
  cases words with
  | nil => exact ⟨[], by simp [List.intercalate]⟩
  | cons next words =>
    exact ⟨[' '] ++ [' '].intercalate (next :: words), by
      simp [List.intercalate, List.intersperse]⟩

/-- The path is in the heading, and the content between the fences. -/
theorem formatResult_shows (percent : σ → ℤ) (semantic : Bool) (r : SearchResult σ) :
    orElse r.filePath "unknown".toList <:+: formatResult percent semantic r ∧
      orElse r.content [] <:+: formatResult percent semantic r := by
  constructor
  · have hpath : orElse r.filePath "unknown".toList <:+:
        "## ".toList ++ [backtick] ++ orElse r.filePath "unknown".toList ++ [backtick] :=
      ⟨"## ".toList ++ [backtick], [backtick], rfl⟩
    have hheading := (isPrefix_intercalate ("## ".toList ++ [backtick] ++
      orElse r.filePath "unknown".toList ++ [backtick]) (headingWords percent semantic r)).isInfix
    refine (hpath.trans hheading).trans ?_
    unfold formatResult
    dsimp only
    simp only [List.append_assoc]
    exact (List.prefix_append _ _).isInfix
  · exact ⟨_, _, rfl⟩

theorem rendered (percent : σ → ℤ) (semantic : Bool) (shown : List (SearchResult σ))
    (pagination : Pagination) : Rendered percent semantic shown pagination
      (formatSearchResultsMarkdown percent shown pagination semantic) where
  none h := by rw [formatSearchResultsMarkdown, if_pos h]
  some h := by
    unfold formatSearchResultsMarkdown
    rw [if_neg h]
    refine ⟨_, rfl, fun hmore next hnext => ?_⟩
    simp only [hmore, hnext, Option.getD_some, if_true, List.append_assoc]
    exact List.suffix_append _ _
  results r _ := formatResult_shows percent semantic r

theorem searchPage_spec (percent : σ → ℤ) (semantic : Bool) (page : List (SearchResult σ))
    (pagination : Pagination) :
    ∃ n, Response percent semantic page pagination (searchPage percent semantic page pagination).1
      (searchPage percent semantic page pagination).2 n := by
  obtain ⟨n, hn, hpos, hshown, hafter, hfits⟩ :=
    @trimResults_spec σ percent semantic page pagination
  refine ⟨n, ?_⟩
  unfold searchPage
  generalize trimResults percent semantic page pagination = trimmed at hshown hafter hfits
  obtain ⟨results, pagination'⟩ := trimmed
  dsimp only at hshown hafter hfits ⊢
  cases results with
  | nil =>
    refine ⟨hn, hpos, Or.inl hshown, hafter, Or.inl ?_⟩
    show estimateTokens "No results found.".toList ≤ _
    decide
  | cons r rest =>
    dsimp only
    split
    · rename_i hover
      have hone : n = 1 := by
        by_contra hne
        have hle := hfits (by
          have hlen := congrArg List.length hshown
          simp only [List.length_cons, List.length_take] at hlen
          omega)
        exact absurd hover (Nat.not_lt.2 hle)
      subst hone
      have hhead : page.head? = some r := by
        cases page with
        | nil => cases hshown
        | cons a page =>
          rw [List.take_succ_cons] at hshown
          exact congrArg some (List.cons.inj hshown).1.symm
      refine ⟨hn, hpos, Or.inr ⟨rfl, r, _, hhead, rfl⟩, hafter, ?_⟩
      rcases @shrinkContent_spec σ percent semantic r pagination'
        (maxResponseTokens * 3 - 300) with hle | hzero
      · exact Or.inl hle
      · exact Or.inr ⟨r, hhead, by rw [hzero]⟩
    · rename_i hle
      exact ⟨hn, hpos, Or.inl hshown, hafter, Or.inl (Nat.le_of_not_lt hle)⟩

/-! ## Following the pagination -/

/-- A service that gives the results of a query in pages of one size. -/
structure Pages (all : List (SearchResult σ)) (pageSize : ℕ)
    (search : ℕ → List (SearchResult σ) × Pagination) : Prop where
  pos : 0 < pageSize
  page : ∀ o, (search o).1 = (all.drop o).take pageSize
  offset : ∀ o, (search o).2.offset = some (o : ℤ)
  hasMore : ∀ o, (search o).2.hasMore = some (decide (o + pageSize < all.length))
  nextOffset : ∀ o, (search o).2.nextOffset =
    if o + pageSize < all.length then some ((o : ℤ) + pageSize) else none

/-- A search that has all results at hand. -/
def pagesOf (all : List (SearchResult σ)) (pageSize offset : ℕ) :
    List (SearchResult σ) × Pagination :=
  ((all.drop offset).take pageSize,
    { offset := some (offset : ℤ)
      pageSize := some (pageSize : ℤ)
      hasMore := some (decide (offset + pageSize < all.length))
      total := some (all.length : ℤ)
      nextOffset :=
        if offset + pageSize < all.length then some ((offset : ℤ) + pageSize) else none })

theorem pages_pagesOf (all : List (SearchResult σ)) {pageSize : ℕ} (h : 0 < pageSize) :
    Pages all pageSize (pagesOf all pageSize) :=
  ⟨h, fun _ => rfl, fun _ => rfl, fun _ => rfl, fun _ => rfl⟩

/-- What a client sees that follows `next_offset` while there is more. -/
def shownFrom (percent : σ → ℤ) (semantic : Bool)
    (search : ℕ → List (SearchResult σ) × Pagination) : ℕ → ℕ → List (SearchResult σ)
  | 0, _ => []
  | requests + 1, offset =>
    let (shown, pagination) := searchPage percent semantic (search offset).1 (search offset).2
    match pagination.hasMore, pagination.nextOffset with
    | some true, some next => shown ++ shownFrom percent semantic search requests next.toNat
    | _, _ => shown

/-- A result whatever is left of its content. -/
def SearchResult.place (r : SearchResult σ) : SearchResult σ := { r with content := none }

theorem Response.places {page shown : List (SearchResult σ)}
    {n : ℕ} (h : Response percent semantic page pagination shown pagination' n) :
    shown.map SearchResult.place = (page.take n).map SearchResult.place := by
  rcases h.front with rfl | ⟨rfl, r, chars, hhead, rfl⟩
  · rfl
  · cases page with
    | nil => cases hhead
    | cons a page =>
      obtain rfl := Option.some.inj hhead
      rfl

/-- Every result is seen once, in order. -/
theorem shownFrom_eq {all : List (SearchResult σ)} {pageSize : ℕ}
    {search : ℕ → List (SearchResult σ) × Pagination} (h : Pages all pageSize search) :
    ∀ {requests offset : ℕ}, all.length < offset + requests →
      (shownFrom percent semantic search requests offset).map SearchResult.place =
        (all.drop offset).map SearchResult.place
  | 0, offset, hlt => by
    rw [List.drop_eq_nil_of_le (by omega)]
    rfl
  | requests + 1, offset, hlt => by
    obtain ⟨n, hn⟩ := searchPage_spec percent semantic (search offset).1 (search offset).2
    have hlen : (search offset).1.length = min pageSize (all.length - offset) := by
      rw [h.page, List.length_take, List.length_drop]
    have hplaces := hn.places
    have htake : (search offset).1.take n = (all.drop offset).take n := by
      have hle := hn.le
      rw [h.page, List.take_take, Nat.min_eq_left (by omega)]
    rw [htake] at hplaces
    have hafter := hn.after
    have hpos := h.pos
    unfold shownFrom
    generalize searchPage percent semantic (search offset).1 (search offset).2 = found
      at hplaces hafter
    obtain ⟨shown, pagination⟩ := found
    dsimp only at hplaces hafter ⊢
    unfold PointsAfter at hafter
    -- the offset of the next request is behind what was shown
    have hnext : ∀ next : ℕ, next = offset + n → 0 < n →
        (shown ++ shownFrom percent semantic search requests next).map SearchResult.place =
          (all.drop offset).map SearchResult.place := by
      rintro next rfl hn0
      rw [List.map_append, hplaces, shownFrom_eq h (by omega), ← List.drop_drop, ← List.map_append,
        List.take_append_drop]
    split at hafter
    · rename_i hcut
      subst hafter
      rw [h.offset]
      refine hnext _ ?_ (hn.pos fun hnil => ?_)
      · simp
        omega
      · rw [hnil] at hcut
        exact Nat.not_lt_zero _ hcut
    · rename_i hall
      have hle := hn.le
      subst hafter
      rw [h.hasMore, h.nextOffset]
      by_cases hmore : offset + pageSize < all.length
      · rw [if_pos hmore, decide_eq_true hmore]
        exact hnext _ (by omega) (by omega)
      · rw [if_neg hmore]
        have hdone : (all.drop offset).take n = all.drop offset := by
          refine List.take_of_length_le ?_
          rw [List.length_drop]
          omega
        rw [hdone] at hplaces
        cases decide (offset + pageSize < all.length) <;> exact hplaces

/-- A search response without its warnings, and what a client sees that follows it. The text shows
the results that are left, in their order. -/
theorem searchResponse_spec (percent : σ → ℤ) (semantic : Bool) (page : List (SearchResult σ))
    (pagination : Pagination) :
    (∃ shown pagination' n, Response percent semantic page pagination shown pagination' n ∧
      executeSearch percent semantic page pagination [] =
        formatSearchResultsMarkdown percent shown pagination' semantic ∧
      Rendered percent semantic shown pagination'
        (executeSearch percent semantic page pagination []) ∧
      ∀ warnings, executeSearch percent semantic page pagination [] <:+
        executeSearch percent semantic page pagination warnings) ∧
    ∀ all pageSize search, Pages (σ := σ) all pageSize search → ∀ requests offset,
      all.length < offset + requests →
        (shownFrom percent semantic search requests offset).map SearchResult.place =
          (all.drop offset).map SearchResult.place := by
  refine ⟨?_, fun all pageSize search h requests offset hlt => shownFrom_eq h hlt⟩
  obtain ⟨n, hn⟩ := searchPage_spec percent semantic page pagination
  refine ⟨_, _, n, hn, rfl, rendered percent semantic _ _, fun warnings => ?_⟩
  unfold executeSearch
  dsimp only
  rw [if_pos rfl]
  split
  · exact List.suffix_refl _
  · exact List.suffix_append _ _

end Shown

end ChunkHound.SearchTool
