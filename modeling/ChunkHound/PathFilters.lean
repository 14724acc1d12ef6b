import ChunkHound.ChunkDiff
import Mathlib.Data.List.Basic
import Mathlib.Data.List.Infix

/-!
# Path filters

A search takes a path filter. `_validate_and_normalize_path_filter` and `_build_path_like_pattern`
of the DuckDB provider make a `LIKE` pattern of it, with `escape_like_pattern` of `like_utils.py`.
`_search_diff` of `diff_aware_search_service.py` makes a prefix of it.

A filter with a slash at its end, or whose last component has no dot after the first character,
names a directory to the provider, otherwise a file. Either may stand below any directory
(`mem_selectDuckdb`). `_search_diff` looks for the directory at the root (`mem_selectDiff`).

Texts are lists of characters. An indexed file is stored under its path from the root, with `/`
between the components.
-/

namespace ChunkHound.PathFilters

/-! ## LIKE -/

/-- An item of a `LIKE` pattern : a character, `_`, or `%`. -/
inductive Item
  | lit (c : Char)
  | one
  | any
  deriving DecidableEq

/-- The items of a pattern with `ESCAPE '\'`, which must not stand at the end. -/
def parseLike : List Char → Option (List Item)
  | [] => some []
  | ['\\'] => none
  | '\\' :: c :: p => (parseLike p).map (.lit c :: ·)
  | '_' :: p => (parseLike p).map (.one :: ·)
  | '%' :: p => (parseLike p).map (.any :: ·)
  | c :: p => (parseLike p).map (.lit c :: ·)

def matchesItems : List Item → List Char → Bool
  | [], s => s.isEmpty
  | .lit c :: p, x :: s => x == c && matchesItems p s
  | .one :: p, _ :: s => matchesItems p s
  | .lit _ :: _, [] | .one :: _, [] => false
  | .any :: p, s => s.tails.any (matchesItems p)

/-- `value.replace(c, by_)` -/
def replaceChar (c : Char) (r : List Char) (value : List Char) : List Char :=
  value.flatMap fun x => if x = c then r else [x]

/-- `escape_like_pattern`. The quote is the apostrophe. -/
def escapeLikePattern (value : List Char) (escapeQuotes : Bool) : List Char :=
  let escaped := replaceChar '[' ['\\', '['] (replaceChar '_' ['\\', '_']
    (replaceChar '%' ['\\', '%'] (replaceChar '\\' ['\\', '\\'] value)))
  let quote := Char.ofNat 39
  if escapeQuotes then replaceChar quote [quote, quote] escaped else escaped

/-! ## Filters -/

/-- `dangerous_patterns`, and `_danger` of `_search_diff`. -/
def forbidden : List (List Char) :=
  [['.', '.'], ['~'], ['*'], ['?'], ['['], [']'], [Char.ofNat 0], ['\n'], ['\r']]

/-- The first forbidden pattern in a text. -/
def forbiddenIn (s : List Char) : Option (List Char) := forbidden.find? fun bad => bad <:+: s

/-- `filter.replace("\\", "/").lstrip("/")` -/
def relative (s : List Char) : List Char :=
  (s.map fun c => if c = '\\' then '/' else c).dropWhile fun c => c = '/'

/-- The last component of a path has a dot after its first character. -/
def hasFileExtension (s : List Char) : Bool :=
  ((s.splitOn '/').getLast (List.splitOn_ne_nil _ _)).tail.contains '.'

/-- `_validate_and_normalize_path_filter`. The error is the forbidden pattern. -/
def validateAndNormalizePathFilter :
    Option (List Char) → Except (List Char) (Option (List Char))
  | none => .ok none
  | some filter =>
    let normalized := strip filter
    if normalized = [] then .ok none
    else
      match forbiddenIn normalized with
      | some bad => .error bad
      | none =>
        let normalized := relative normalized
        if normalized ≠ [] ∧ normalized.getLast? ≠ some '/' ∧ ¬ hasFileExtension normalized then
          .ok (some (normalized ++ ['/']))
        else .ok (some normalized)

/-- `_build_path_like_pattern` -/
def buildPathLikePattern (normalizedPath : List Char) : List Char :=
  let escaped := escapeLikePattern normalizedPath false
  if escaped.getLast? = some '/' then '%' :: '/' :: escaped ++ ['%'] else '%' :: '/' :: escaped

/-- `CONCAT('/', f.path) LIKE ? ESCAPE '\'` -/
def likePath (pattern path : List Char) : Bool :=
  (parseLike pattern).any fun items => matchesItems items ('/' :: path)

/-- The files in which a search of the DuckDB provider looks. A search catches its error and finds
nothing. -/
def selectDuckdb (filter : Option (List Char)) (paths : List (List Char)) : List (List Char) :=
  match validateAndNormalizePathFilter filter with
  | .error _ => []
  | .ok none => paths
  | .ok (some normalized) => paths.filter (likePath (buildPathLikePattern normalized))

/-- The prefix that `_search_diff` makes of a filter. It raises at a forbidden pattern. -/
def diffPrefix : Option (List Char) → Except (List Char) (Option (List Char))
  | none | some [] => .ok none
  | some filter =>
    match forbiddenIn filter with
    | some bad => .error bad
    | none => .ok (some ((relative filter).rdropWhile (fun c => c = '/') ++ ['/']))

/-- The files in which `_search_diff` looks. -/
def selectDiff (filter : Option (List Char)) (paths : List (List Char)) :
    Except (List Char) (List (List Char)) :=
  (diffPrefix filter).map fun pf => paths.filter fun path => pf.all fun pf => pf.isPrefixOf path

/-! ## Paths -/

/-- A path from the root, by its components. -/
structure Path where
  components : List (List Char)
  nonempty : components ≠ []
  valid : ∀ c ∈ components, c ≠ [] ∧ '/' ∉ c

/-- The path as it is stored. -/
def Path.text (p : Path) : List Char := ['/'].intercalate p.components

/-- The file is somewhere below a directory of which these are the last components. -/
def Path.Below (p : Path) (dir : List (List Char)) : Prop :=
  ∃ pre post, post ≠ [] ∧ p.components = pre ++ dir ++ post

/-- The same, with the directory at the root. -/
def Path.BelowRoot (p : Path) (dir : List (List Char)) : Prop :=
  ∃ post, post ≠ [] ∧ p.components = dir ++ post

/-- A filter without the slash at its end. -/
def dropSlash (s : List Char) : List Char :=
  if s.getLast? = some '/' then s.dropLast else s

/-- The filter names a directory to the provider. -/
def IsDirectory (filter : List Char) : Prop :=
  filter ≠ [] ∧ (filter.getLast? = some '/' ∨ hasFileExtension filter = false)

instance (filter : List Char) : Decidable (IsDirectory filter) :=
  inferInstanceAs (Decidable (_ ∧ _))

/-- Where the provider looks, for a filter that it does not refuse. -/
def DuckdbMeans (filter : List Char) (p : Path) : Prop :=
  strip filter = [] ∨ forbiddenIn (strip filter) = none ∧
    if IsDirectory (relative (strip filter)) then
      p.Below ((dropSlash (relative (strip filter))).splitOn '/')
    else (relative (strip filter)).splitOn '/' <:+ p.components

/-- Where `_search_diff` looks. -/
def DiffMeans (filter : List Char) (p : Path) : Prop :=
  filter = [] ∨ forbiddenIn filter = none ∧
    p.BelowRoot (((relative filter).rdropWhile fun c => c = '/').splitOn '/')

/-! ## Literal patterns -/

/-- Characters that `LIKE` takes literally after `\`. -/
def escapeChar (c : Char) : List Char :=
  if c = '\\' ∨ c = '%' ∨ c = '_' ∨ c = '[' then ['\\', c] else [c]

/-- The characters are escaped one after another, and no escape is escaped again. -/
theorem escapeLikePattern_eq (value : List Char) :
    escapeLikePattern value false = value.flatMap escapeChar := by
  simp only [escapeLikePattern, replaceChar, List.flatMap_assoc, Bool.false_eq_true, if_false]
  refine List.flatMap_congr fun c _ => ?_
  unfold escapeChar
  by_cases hb : c = '\\'
  · subst hb
    decide
  by_cases hp : c = '%'
  · subst hp
    decide
  by_cases hu : c = '_'
  · subst hu
    decide
  simp only [hb, hp, hu, false_or, if_false, List.flatMap_singleton]
  by_cases hl : c = '['
  · subst hl
    rfl
  · simp [hl]

theorem parseLike_escapeChar (c : Char) (p : List Char) :
    parseLike (escapeChar c ++ p) = (parseLike p).map (.lit c :: ·) := by
  unfold escapeChar
  split
  · simp [parseLike]
  · rename_i h
    simp only [not_or] at h
    obtain ⟨hb, hp, hu, -⟩ := h
    have hcons : parseLike (c :: p) = (parseLike p).map (.lit c :: ·) := by
      rw [parseLike.eq_def]
      split <;> simp_all
    simpa using hcons

/-- An escaped text is a pattern of just its characters. -/
theorem parseLike_escape (p : List Char) : ∀ value : List Char,
    parseLike (escapeLikePattern value false ++ p) =
      (parseLike p).map (value.map .lit ++ ·)
  | [] => by simp [escapeLikePattern_eq]
  | c :: value => by
    have ih := parseLike_escape p value
    rw [escapeLikePattern_eq] at ih ⊢
    rw [List.flatMap_cons, List.append_assoc, parseLike_escapeChar, ih, Option.map_map]
    rfl

/-- The text that follows `value` in `s`, if any, has to match the rest. -/
theorem matchesItems_lits (p : List Item) : ∀ (value s : List Char),
    matchesItems (value.map .lit ++ p) s = true ↔
      ∃ t, s = value ++ t ∧ matchesItems p t = true
  | [], s => by simp
  | c :: value, [] => by simp [matchesItems]
  | c :: value, x :: s => by
    have ih := matchesItems_lits p value s
    simp only [List.map_cons, List.cons_append, matchesItems, Bool.and_eq_true, beq_iff_eq, ih,
      List.cons.injEq]
    constructor
    · rintro ⟨rfl, t, hs, ht⟩
      exact ⟨t, ⟨rfl, hs⟩, ht⟩
    · rintro ⟨t, ⟨rfl, hs⟩, ht⟩
      exact ⟨rfl, t, hs, ht⟩

theorem matchesItems_any (p : List Item) (s : List Char) :
    matchesItems (.any :: p) s = true ↔ ∃ a t, s = a ++ t ∧ matchesItems p t = true := by
  simp only [matchesItems, List.any_eq_true, List.mem_tails]
  constructor
  · rintro ⟨t, ⟨a, rfl⟩, ht⟩
    exact ⟨a, t, rfl, ht⟩
  · rintro ⟨a, t, rfl, ht⟩
    exact ⟨t, ⟨a, rfl⟩, ht⟩

theorem matchesItems_nil (s : List Char) : matchesItems [] s = true ↔ s = [] := by
  simp [matchesItems]

theorem getLast?_escape (value : List Char) :
    (escapeLikePattern value false).getLast? = value.getLast? := by
  rcases List.eq_nil_or_concat value with rfl | ⟨init, c, rfl⟩
  · simp [escapeLikePattern_eq]
  · rw [escapeLikePattern_eq, List.concat_eq_append, List.flatMap_append, List.flatMap_singleton]
    unfold escapeChar
    split <;> simp

/-- What `CONCAT` makes of a path is looked through for the filter, up to its end when the filter
has no slash there. -/
theorem likePath_iff (n path : List Char) :
    likePath (buildPathLikePattern n) path = true ↔
      ∃ a t, '/' :: path = a ++ '/' :: (n ++ t) ∧ (n.getLast? = some '/' ∨ t = []) := by
  unfold likePath buildPathLikePattern
  simp only [getLast?_escape]
  split
  · rename_i hslash
    have hparse : parseLike ('%' :: '/' :: escapeLikePattern n false ++ ['%']) =
        some (.any :: .lit '/' :: (n.map .lit ++ ([.any] : List Item))) := by
      simp [parseLike, parseLike_escape]
    rw [hparse, Option.any_some, matchesItems_any]
    constructor
    · rintro ⟨a, t, heq, ht⟩
      obtain ⟨u, rfl, -⟩ := (matchesItems_lits [.any] ('/' :: n) t).1 ht
      exact ⟨a, u, heq, Or.inl hslash⟩
    · rintro ⟨a, t, heq, -⟩
      refine ⟨a, '/' :: (n ++ t), heq, (matchesItems_lits [.any] ('/' :: n) _).2 ⟨t, rfl, ?_⟩⟩
      exact (matchesItems_any [] t).2 ⟨t, [], by simp, rfl⟩
  · rename_i hslash
    have hparse : parseLike ('%' :: '/' :: escapeLikePattern n false) =
        some (.any :: .lit '/' :: (n.map .lit ++ [])) := by
      have := parseLike_escape [] n
      rw [List.append_nil] at this
      simp [parseLike, this]
    rw [hparse, Option.any_some, matchesItems_any]
    constructor
    · rintro ⟨a, t, heq, ht⟩
      obtain ⟨u, rfl, hu⟩ := (matchesItems_lits [] ('/' :: n) t).1 ht
      exact ⟨a, u, heq, Or.inr ((matchesItems_nil u).1 hu)⟩
    · rintro ⟨a, t, heq, ht⟩
      refine ⟨a, '/' :: (n ++ t), heq, (matchesItems_lits [] ('/' :: n) _).2 ⟨t, rfl, ?_⟩⟩
      exact (matchesItems_nil t).2 (ht.resolve_left hslash)

/-! ## Texts and their components -/

/-- A text is told by its parts. -/
theorem splitOn_inj {s t : List Char} (h : s.splitOn '/' = t.splitOn '/') : s = t :=
  calc s = ['/'].intercalate (s.splitOn '/') := (List.intercalate_splitOn '/').symm
    _ = ['/'].intercalate (t.splitOn '/') := by rw [h]
    _ = t := List.intercalate_splitOn '/'

theorem Path.splitOn_text (p : Path) : p.text.splitOn '/' = p.components :=
  List.splitOn_intercalate '/' (fun c hc => (p.valid c hc).2) p.nonempty

theorem Path.splitOn_slash (p : Path) : ('/' :: p.text).splitOn '/' = [] :: p.components := by
  have h := List.splitOn_append_cons_self (a := '/') [] p.text
  rw [p.splitOn_text] at h
  simpa using h

variable {p : Path}

/-- Components without a slash are read back from the text they make. -/
theorem Path.splitOn_part {pre part post : List (List Char)}
    (h : p.components = pre ++ part ++ post) (hne : part ≠ []) :
    (['/'].intercalate part).splitOn '/' = part :=
  List.splitOn_intercalate '/' (fun c hc => (p.valid c (by rw [h]; simp [hc])).2) hne

/-- Leading components are split off as they were joined. -/
theorem Path.splitOn_leading (p : Path) (pre : List (List Char))
    (hpre : ∀ c ∈ pre, c ∈ p.components) :
    (['/'].intercalate ([] :: pre)).splitOn '/' = [] :: pre := by
  refine List.splitOn_intercalate '/' (fun c hc => ?_) (List.cons_ne_nil _ _)
  rcases List.mem_cons.1 hc with rfl | hc
  · exact List.not_mem_nil
  · exact (p.valid c (hpre c hc)).2

/-- A filter found behind a slash is a run of components. -/
theorem Path.infix_iff (p : Path) (m : List Char) :
    (∃ a t, '/' :: p.text = a ++ '/' :: (m ++ '/' :: t)) ↔ p.Below (m.splitOn '/') := by
  constructor
  · rintro ⟨a, t, heq⟩
    have hsplit := congrArg (List.splitOn '/') heq
    rw [p.splitOn_slash, List.splitOn_append_cons_self, List.splitOn_append_cons_self] at hsplit
    obtain ⟨c, pre, ha⟩ := List.exists_cons_of_ne_nil (List.splitOn_ne_nil '/' a)
    rw [ha, List.cons_append, List.cons.injEq] at hsplit
    exact ⟨pre, t.splitOn '/', List.splitOn_ne_nil _ _, by rw [hsplit.2, List.append_assoc]⟩
  · rintro ⟨pre, post, hpost, hcs⟩
    have hend : p.components = pre ++ m.splitOn '/' ++ post ++ [] := by rw [hcs, List.append_nil]
    have hpostText := p.splitOn_part hend hpost
    refine ⟨['/'].intercalate ([] :: pre), ['/'].intercalate post, splitOn_inj ?_⟩
    have hpre := p.splitOn_leading pre fun c hc => by rw [hcs]; simp [hc]
    rw [p.splitOn_slash, List.splitOn_append_cons_self, List.splitOn_append_cons_self, hpostText,
      hpre, hcs, List.cons_append, List.append_assoc]

/-- A filter found at the end is the last components. -/
theorem Path.suffix_iff (p : Path) (m : List Char) :
    (∃ a, '/' :: p.text = a ++ '/' :: m) ↔ m.splitOn '/' <:+ p.components := by
  constructor
  · rintro ⟨a, heq⟩
    have hsplit := congrArg (List.splitOn '/') heq
    rw [p.splitOn_slash, List.splitOn_append_cons_self] at hsplit
    obtain ⟨c, pre, ha⟩ := List.exists_cons_of_ne_nil (List.splitOn_ne_nil '/' a)
    rw [ha, List.cons_append, List.cons.injEq] at hsplit
    exact ⟨pre, hsplit.2.symm⟩
  · rintro ⟨pre, hcs⟩
    refine ⟨['/'].intercalate ([] :: pre), splitOn_inj ?_⟩
    have hpre := p.splitOn_leading pre fun c hc => by rw [← hcs]; simp [hc]
    rw [p.splitOn_slash, List.splitOn_append_cons_self, hpre, ← hcs, List.cons_append]

/-- A prefix up to a slash is the first components. -/
theorem Path.prefix_iff (p : Path) (m : List Char) :
    m ++ ['/'] <+: p.text ↔ p.BelowRoot (m.splitOn '/') := by
  constructor
  · rintro ⟨t, heq⟩
    have hsplit := congrArg (List.splitOn '/') heq
    rw [p.splitOn_text, List.append_assoc, List.singleton_append,
      List.splitOn_append_cons_self] at hsplit
    exact ⟨t.splitOn '/', List.splitOn_ne_nil _ _, hsplit.symm⟩
  · rintro ⟨post, hpost, hcs⟩
    have hend : p.components = m.splitOn '/' ++ post ++ [] := by rw [hcs, List.append_nil]
    have hpostText := p.splitOn_part hend hpost
    refine ⟨['/'].intercalate post, splitOn_inj ?_⟩
    rw [List.append_assoc, List.singleton_append, List.splitOn_append_cons_self, hpostText,
      p.splitOn_text, hcs]

theorem Path.text_inj {p q : Path} (h : p.text = q.text) : p = q := by
  have hcs : p.components = q.components := by rw [← p.splitOn_text, h, q.splitOn_text]
  cases p
  cases q
  simpa using hcs

theorem Path.BelowRoot.below {dir : List (List Char)} (h : p.BelowRoot dir) :
    p.Below dir := by
  obtain ⟨post, hpost, hcs⟩ := h
  exact ⟨[], post, hpost, by simpa using hcs⟩

variable {paths : List Path}

theorem text_mem_map :
    p.text ∈ paths.map Path.text ↔ p ∈ paths := by
  rw [List.mem_map]
  refine ⟨?_, fun hp => ⟨p, hp, rfl⟩⟩
  rintro ⟨q, hq, heq⟩
  rwa [← Path.text_inj heq]

theorem text_mem_filter {f : List Char → Bool} :
    p.text ∈ (paths.map Path.text).filter f ↔ p ∈ paths ∧ f p.text = true := by
  rw [List.mem_filter, text_mem_map]

/-! ## What is selected -/

theorem dropSlash_append {s : List Char} (h : s.getLast? = some '/') :
    dropSlash s ++ ['/'] = s := by
  obtain ⟨init, rfl⟩ := List.getLast?_eq_some_iff.1 h
  simp [dropSlash]

/-- A directory is looked for with a slash at its end. -/
theorem likePath_directory (m : List Char) (p : Path) :
    likePath (buildPathLikePattern (m ++ ['/'])) p.text = true ↔ p.Below (m.splitOn '/') := by
  rw [likePath_iff, ← p.infix_iff]
  constructor
  · rintro ⟨a, t, heq, -⟩
    exact ⟨a, t, by simpa using heq⟩
  · rintro ⟨a, t, heq⟩
    exact ⟨a, t, by simpa using heq, Or.inl (by simp)⟩

theorem likePath_file {n : List Char} (h : n.getLast? ≠ some '/') (p : Path) :
    likePath (buildPathLikePattern n) p.text = true ↔ n.splitOn '/' <:+ p.components := by
  rw [likePath_iff, ← p.suffix_iff]
  constructor
  · rintro ⟨a, t, heq, hend⟩
    obtain rfl := hend.resolve_left h
    exact ⟨a, by simpa using heq⟩
  · rintro ⟨a, heq⟩
    exact ⟨a, [], by simpa using heq, Or.inr rfl⟩

/-- The normalised filter, with the slash that a directory gets. -/
theorem likePath_normalized (n : List Char) (p : Path) :
    likePath (buildPathLikePattern
        (if n ≠ [] ∧ n.getLast? ≠ some '/' ∧ ¬ hasFileExtension n then n ++ ['/'] else n)) p.text =
      true ↔
      if IsDirectory n then p.Below ((dropSlash n).splitOn '/')
      else n.splitOn '/' <:+ p.components := by
  by_cases hlast : n.getLast? = some '/'
  · have hne : n ≠ [] := by
      rintro rfl
      cases hlast
    rw [if_neg (by simp [hlast]), if_pos ⟨hne, Or.inl hlast⟩]
    conv_lhs => rw [← dropSlash_append hlast]
    exact likePath_directory _ p
  · have hdrop : dropSlash n = n := if_neg hlast
    by_cases hdir : IsDirectory n
    · have hext : hasFileExtension n = false := hdir.2.resolve_left hlast
      rw [if_pos ⟨hdir.1, hlast, by simp [hext]⟩, if_pos hdir, hdrop]
      exact likePath_directory n p
    · rw [if_neg fun h => hdir ⟨h.1, Or.inr (by simpa using h.2.2)⟩, if_neg hdir]
      exact likePath_file hlast p

theorem mem_selectDuckdb (paths : List Path) (filter : List Char) (p : Path) :
    p.text ∈ selectDuckdb (some filter) (paths.map Path.text) ↔
      p ∈ paths ∧ DuckdbMeans filter p := by
  unfold selectDuckdb validateAndNormalizePathFilter DuckdbMeans
  by_cases hnil : strip filter = []
  · simp [hnil, text_mem_map]
  · cases hbad : forbiddenIn (strip filter) with
    | some bad => simp [hnil, hbad]
    | none =>
      simp only [hnil, hbad, if_false, false_or, true_and, ← apply_ite some,
        ← apply_ite (Except.ok (ε := List Char))]
      rw [text_mem_filter, likePath_normalized]

/-- A filter is refused for what it contains, or makes a prefix. -/
theorem diffPrefix_eq (filter : List Char) :
    diffPrefix (some filter) = if filter = [] then .ok none else
      match forbiddenIn filter with
      | some bad => .error bad
      | none => .ok (some ((relative filter).rdropWhile (fun c => c = '/') ++ ['/'])) := by
  cases filter with
  | nil => rfl
  | cons c filter => simp [diffPrefix]

variable {filter : List Char}

theorem mem_selectDiff {selected : List (List Char)}
    (h : selectDiff (some filter) (paths.map Path.text) = .ok selected) (p : Path) :
    p.text ∈ selected ↔ p ∈ paths ∧ DiffMeans filter p := by
  unfold selectDiff at h
  rw [diffPrefix_eq] at h
  unfold DiffMeans
  by_cases hnil : filter = []
  · rw [if_pos hnil] at h
    obtain rfl := Except.ok.inj h
    simp only [hnil, true_or, and_true, Option.all_none, List.filter_true]
    exact text_mem_map
  · rw [if_neg hnil] at h
    cases hbad : forbiddenIn filter with
    | some bad =>
      rw [hbad] at h
      cases h
    | none =>
      rw [hbad] at h
      obtain rfl := Except.ok.inj h
      rw [text_mem_filter, Option.all_some, List.isPrefixOf_iff_prefix, p.prefix_iff]
      simp [hnil]

/-- The filter names a directory to the provider, and is spelt with one slash at its end or none,
and no space around it. -/
def NamesDirectory (filter : List Char) : Prop :=
  strip filter = filter ∧ IsDirectory (relative filter) ∧
    (dropSlash (relative filter)).getLast? ≠ some '/'

theorem rdropWhile_of_getLast? : ∀ {s : List Char}, s.getLast? ≠ some '/' →
    s.rdropWhile (fun c => c = '/') = s := by
  intro s h
  refine List.rdropWhile_eq_self_iff.2 fun hne => ?_
  rw [List.getLast?_eq_some_getLast hne] at h
  simpa using h

/-- `rstrip` drops no more than the one slash. -/
theorem rstrip_eq_dropSlash {s : List Char} (h : (dropSlash s).getLast? ≠ some '/') :
    s.rdropWhile (fun c => c = '/') = dropSlash s := by
  by_cases hlast : s.getLast? = some '/'
  · conv_lhs => rw [← dropSlash_append hlast]
    rw [List.rdropWhile_concat_pos _ _ _ (by simp), rdropWhile_of_getLast? h]
  · rw [dropSlash, if_neg hlast, rdropWhile_of_getLast? hlast]

/-- Of what the provider selects, `_search_diff` selects what is below the directory at the root. -/
theorem NamesDirectory.diffMeans_iff (h : NamesDirectory filter) (p : Path) :
    DiffMeans filter p ↔
      DuckdbMeans filter p ∧ p.BelowRoot ((dropSlash (relative filter)).splitOn '/') := by
  obtain ⟨hstrip, hdir, hslash⟩ := h
  have hne : filter ≠ [] := by
    rintro rfl
    exact hdir.1 rfl
  unfold DiffMeans DuckdbMeans
  rw [hstrip, if_pos hdir, rstrip_eq_dropSlash hslash]
  simp only [hne, false_or]
  constructor
  · rintro ⟨hok, hroot⟩
    exact ⟨⟨hok, hroot.below⟩, hroot⟩
  · rintro ⟨⟨hok, -⟩, hroot⟩
    exact ⟨hok, hroot⟩

/-! ## Results -/

theorem selectDiff_forbidden (paths : List (List Char)) {filter bad : List Char}
    (h : forbiddenIn filter = some bad) : selectDiff (some filter) paths = .error bad := by
  have hne : filter ≠ [] := by
    rintro rfl
    revert h
    decide +revert
  rw [selectDiff, diffPrefix_eq, if_neg hne, h]
  rfl

theorem selectDiff_allowed (paths : List (List Char)) (h : forbiddenIn filter = none) :
    ∃ selected, selectDiff (some filter) paths = .ok selected := by
  rw [selectDiff, diffPrefix_eq, h]
  split
  · exact ⟨_, rfl⟩
  · exact ⟨_, rfl⟩

/-- The filter of a component path selects the files below it, if it is a directory of some indexed
file, and the file that it is, in both searches. -/
def SelectsNamed (paths : List Path) (named : Path) : Prop :=
  let selected := selectDuckdb (some named.text) (paths.map Path.text)
  ((∃ p ∈ paths, p.BelowRoot named.components) →
    ∀ p ∈ paths, p.text ∈ selected ↔ p.BelowRoot named.components) ∧
  (named ∈ paths → ∀ p ∈ paths, p.text ∈ selected ↔ p = named) ∧
  selectDiff (some named.text) (paths.map Path.text) = .ok selected

/-- The file `src/a`. -/
def srcA : Path := ⟨["src".toList, "a".toList], by decide, by decide⟩

/-- The file `lib/src/a`. -/
def libSrcA : Path := ⟨["lib".toList, "src".toList, "a".toList], by decide, by decide⟩

/-- A file without an extension is taken for a directory. -/
example : selectDuckdb (some "src/a".toList) [srcA.text, libSrcA.text] = [] ∧
    selectDiff (some "src/".toList) [srcA.text, libSrcA.text] = .ok [srcA.text] := by
  decide

end ChunkHound.PathFilters
