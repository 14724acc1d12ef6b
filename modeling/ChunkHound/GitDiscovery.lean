import ChunkHound.IgnoreEngine
import ChunkHound.RelativePaths
import Mathlib

/-!
# Discovery through git

`list_repo_files_via_git` asks `git ls-files` for the files of a directory and filters them in
Python. Where every include pattern comes down to an extension or a name, it first hands those to
git as `:(glob)` pathspecs below the directory.

The directory, the extensions and the names go into the pathspecs as they are, and git reads them
as globs. The files found are the same exactly when every wanted file is still read
(`pushdown_iff`), and not for a directory called `[id]` (`bracket_directory_lost`).

Git is a parameter : what one component of a glob matches, and what else a plain pathspec
matches. Both runs of git succeed.
-/

namespace ChunkHound.Discovery

open Ignore

/-! ## fnmatch -/

/-- The set behind a `[` : whether it is negated, its characters, and what follows its `]`. -/
def splitBracket (p : List Char) : Option (Bool × List Char × List Char) :=
  let negated := p.head? = some '!'
  match if negated then p.tail else p with
  | [] => none
  | c :: rest =>
    match rest.dropWhile (· ≠ ']') with
    | [] => none
    | _ :: after => some (negated, c :: rest.takeWhile (· ≠ ']'), after)

/-- The characters and ranges of a set. -/
def inSet : List Char → Char → Bool
  | a :: '-' :: b :: rest, c => (a ≤ c && c ≤ b) || inSet rest c
  | a :: rest, c => a = c || inSet rest c
  | [], _ => false

/-- Match a pattern, with as much fuel as it has characters. -/
def matchPattern : ℕ → List Char → List Char → Bool
  | 0, _, _ => false
  | _ + 1, [], s => s.isEmpty
  | n + 1, c :: p, s =>
    if c = '*' then s.tails.any (matchPattern n p ·)
    else
      match (if c = '[' then splitBracket p else none), s with
      | _, [] => false
      | some (negated, stuff, after), d :: s => (inSet stuff d != negated) && matchPattern n after s
      | none, d :: s => (c = '?' || c = d) && matchPattern n p s

/-- `re.compile(translate(pattern)).match(s)`. A `/` is like any other character. -/
def fnmatch (pattern s : List Char) : Bool := matchPattern (pattern.length + 1) pattern s

/-! ## Include patterns -/

def wildcards : List Char := ['*', '?', '[']

/-- What a simple pattern asks for. -/
inductive Kind
  | ext (value : Segment)
  | name (value : Segment)
  deriving DecidableEq

/-- `is_simple_ext`. -/
def isSimpleExt (s : Segment) : Option Segment :=
  if ['*', '.'].isPrefixOf s ∧ '*' ∉ s.drop 2 ∧ '?' ∉ s ∧ '[' ∉ s ∧ '/' ∉ s then some s.tail
  else none

/-- `is_exact_name`. -/
def isExactName (s : Segment) : Option Segment :=
  if '*' ∉ s ∧ '?' ∉ s ∧ '[' ∉ s ∧ '/' ∉ s ∧ s ≠ [] then some s else none

/-- The kind of the last component. -/
def tailKind (s : Segment) : Option Kind :=
  match isSimpleExt s with
  | some ext => some (.ext ext)
  | none => (isExactName s).map .name

def hasWildcard (s : Segment) : Bool := s.any (· ∈ wildcards)

/-- `classify`. -/
def classify (q : List Char) : Option Kind :=
  if '/' ∉ q then tailKind q
  else
    let parts := q.splitOn '/'
    if parts.dropLast.any fun s => s ≠ stars && hasWildcard s then none
    else tailKind (parts.getLast?.getD [])

/-- `pattern[3:]` where it starts with `**/`. -/
def dropStars (pattern : List Char) : List Char :=
  if ['*', '*', '/'].isPrefixOf pattern then pattern.drop 3 else pattern

def kinds (patterns : List (List Char)) : List (Option Kind) :=
  patterns.map fun p => classify (dropStars p)

/-- `summarize_include_patterns`. -/
def summarizeIncludePatterns (patterns : List (List Char)) :
    List Segment × List Segment × Bool :=
  let found := kinds patterns
  ((found.filterMap fun k => match k with
      | some (.ext value) => some value
      | _ => none).dedup,
    (found.filterMap fun k => match k with
      | some (.name value) => some value
      | _ => none).dedup,
    found.any (·.isNone))

/-! ## Filters -/

def lastPart (p : PurePath) : Segment := p.parts.getLast?.getD []

/-- `should_include_file`. A pattern with `**/` in front is not tried on the name as it is. -/
def shouldIncludeFile (fs : FileSystem) (path root : PurePath) (patterns : List (List Char)) :
    Bool :=
  let filename := lastPart path
  let relPathStr := match fs.getRelativePathSafe path root with
    | .ok rel => rel.posix
    | .error _ => filename
  patterns.any fun pattern =>
    if ['*', '*', '/'].isPrefixOf pattern then
      fnmatch pattern relPathStr || fnmatch (pattern.drop 3) relPathStr ||
        fnmatch (pattern.drop 3) filename
    else fnmatch pattern relPathStr || fnmatch pattern filename

/-- `exclude_pattern[3:-3]` where it is a subtree pattern. -/
def subtreeTarget (pattern : List Char) : Option (List Char) :=
  if ['*', '*', '/'].isPrefixOf pattern ∧ ['/', '*', '*'].isSuffixOf pattern then
    some ((pattern.drop 3).take (pattern.length - 6))
  else none

/-- `should_exclude_path`. -/
def shouldExcludePath (path baseDir : PurePath) (patterns : List (List Char)) : Bool :=
  let absolute : List (List Char) := ['/'] :: path.parts
  let (relPathStr, relParts) := match path.relativeTo baseDir with
    | .ok rel => (rel.posix, rel.parts)
    | .error _ => (path.str.toList, absolute)
  patterns.any fun pattern =>
    match subtreeTarget pattern with
    | some target =>
      if '*' ∈ target ∨ '?' ∈ target ∨ ('[' ∈ target ∧ ']' ∈ target) then
        (relParts ++ absolute).any (fnmatch target ·)
      else target ∈ relParts ++ absolute
    | none =>
      if ['*', '*', '/'].isPrefixOf pattern then
        fnmatch pattern relPathStr || fnmatch (pattern.drop 3) relPathStr ||
          fnmatch (pattern.drop 3) (lastPart path)
      else fnmatch pattern relPathStr || fnmatch pattern (lastPart path)

/-! ## Git -/

inductive Pathspec
  | plain (path : List Segment)
  | glob (pattern : List Segment)
  deriving DecidableEq

/-- The files `git ls-files` lists without a pathspec, the tracked ones first, relative to the
root. -/
structure Repository where
  root : PurePath
  tracked : List PurePath
  others : List PurePath
  isFile : PurePath → Bool

/-- What one component of a glob matches, and the paths a plain pathspec matches besides the one
it names and those below. -/
structure Git where
  glob : Segment → Segment → Bool
  wild : List Segment → List Segment → Bool

/-- A pathspec matches what it names and what lies below, whatever its magic. -/
def Git.matchPathspec (git : Git) (path : List Segment) : Pathspec → Bool
  | .plain p => p.isPrefixOf path || git.wild p path
  | .glob p => p.isPrefixOf path || matchSegments git.glob false p path

/-- `_run_git_ls_files`. -/
def runGitLsFiles (git : Git) (repo : Repository) (pathspecs : List Pathspec) : List PurePath :=
  ((repo.tracked ++ repo.others).filter fun p =>
    pathspecs.isEmpty || pathspecs.any (git.matchPathspec p.parts)).eraseDups

/-- The components of `rel/**/tail` once git has normalized `.` and `..`. -/
def globComponents (rel : List Segment) (tail : Segment) : List Segment :=
  if tail = ['.', '.'] then rel
  else if tail = ['.'] then rel ++ [stars, []]
  else rel ++ [stars, tail]

/-- `build_git_pathspecs`. -/
def buildGitPathspecs (rel : List Segment) (patterns : List (List Char)) : List Pathspec :=
  let (exts, names, _) := summarizeIncludePatterns patterns
  exts.map (fun ext => .glob (globComponents rel ('*' :: ext))) ++
    names.map fun name => .glob (globComponents rel name)

/-- The cap the environment sets. -/
def capOf (capEnv : Option ℤ) : ℤ :=
  match capEnv with
  | some cap => if cap < 1 then 128 else cap
  | none => 128

/-- The pathspecs of the subtree alone. -/
def subtree (rel : List Segment) : List Pathspec := if rel = [] then [] else [.plain rel]

/-- The specs pushed down, where there are any. -/
def pushedSpecs (rel : List Segment) (patterns : List (List Char)) (capEnv : Option ℤ) :
    List Pathspec :=
  let specs := if (summarizeIncludePatterns patterns).2.2 then []
    else buildGitPathspecs rel patterns
  if (specs.length : ℤ) > capOf capEnv then [] else specs

def pathspecs (rel : List Segment) (patterns : List (List Char)) (capEnv : Option ℤ)
    (pushdown : Bool) : List Pathspec :=
  if pushdown then
    if pushedSpecs rel patterns capEnv = [] then subtree rel
    else pushedSpecs rel patterns capEnv
  else subtree rel

/-- The arguments of `list_repo_files_via_git`. `start` is relative to the root. -/
structure Request where
  start : PurePath
  includePatterns : List (List Char)
  configExcludes : List (List Char)
  capEnv : Option ℤ
  filterRoot : Option PurePath

section List

variable (git : Git) (fs : FileSystem) (repo : Repository) (req : Request)

/-- What the loop keeps of a row. -/
def keeps (rel : PurePath) : Bool :=
  let absPath := repo.root.join rel
  let baseForFilters := req.filterRoot.getD (repo.root.join req.start)
  repo.isFile absPath && !shouldExcludePath absPath baseForFilters req.configExcludes &&
    shouldIncludeFile fs absPath baseForFilters req.includePatterns

/-- `list_repo_files_via_git`. -/
def listRepoFilesViaGit (pushdown : Bool) : List PurePath :=
  let relPaths := runGitLsFiles git repo
    (pathspecs req.start.parts req.includePatterns req.capEnv pushdown)
  let relPaths := if req.start.parts = [] then relPaths
    else relPaths.filter fun p => req.start.parts.isPrefixOf p.parts
  (relPaths.filter (keeps fs repo req)).map repo.root.join

/-- A file that the filters keep. -/
structure Wanted (rel : PurePath) : Prop where
  listed : rel ∈ repo.tracked ++ repo.others
  below : req.start.parts <+: rel.parts
  keeps : keeps fs repo req rel = true

/-- A pathspec built for the patterns matches the file. -/
def Reads (rel : PurePath) : Prop :=
  ∃ spec ∈ buildGitPathspecs req.start.parts req.includePatterns,
    git.matchPathspec rel.parts spec = true

end List

/-! ## With and without pushdown -/

section Pushdown

variable {git : Git} {fs : FileSystem} {repo : Repository} {req : Request}

theorem join_injective (base : PurePath) : Function.Injective base.join := by
  intro p q h
  have hparts := congrArg PurePath.parts h
  exact PurePath.ext (List.append_cancel_left hparts)

variable {rel : PurePath}

theorem mem_runGitLsFiles {specs : List Pathspec} :
    rel ∈ runGitLsFiles git repo specs ↔ rel ∈ repo.tracked ++ repo.others ∧
      (specs = [] ∨ ∃ spec ∈ specs, git.matchPathspec rel.parts spec = true) := by
  simp [runGitLsFiles, List.mem_eraseDups, or_and_right]

/-- What is found, whatever the pathspecs. -/
theorem mem_listRepoFilesViaGit {pushdown : Bool} :
    repo.root.join rel ∈ listRepoFilesViaGit git fs repo req pushdown ↔
      Wanted fs repo req rel ∧
        (pathspecs req.start.parts req.includePatterns req.capEnv pushdown = [] ∨
          ∃ spec ∈ pathspecs req.start.parts req.includePatterns req.capEnv pushdown,
            git.matchPathspec rel.parts spec = true) := by
  have hbelow : ∀ paths : List PurePath,
      (if req.start.parts = [] then paths
        else paths.filter fun p => req.start.parts.isPrefixOf p.parts) =
      paths.filter fun p => req.start.parts.isPrefixOf p.parts := by
    intro paths
    split
    · rename_i hnil
      rw [hnil]
      simp
    · rfl
  unfold listRepoFilesViaGit
  dsimp only
  rw [hbelow, List.mem_map_of_injective (join_injective _), List.mem_filter, List.mem_filter,
    mem_runGitLsFiles, List.isPrefixOf_iff_prefix]
  constructor
  · rintro ⟨⟨⟨hlisted, hspecs⟩, hpre⟩, hkeeps⟩
    exact ⟨⟨hlisted, hpre, hkeeps⟩, hspecs⟩
  · rintro ⟨⟨hlisted, hpre, hkeeps⟩, hspecs⟩
    exact ⟨⟨⟨hlisted, hspecs⟩, hpre⟩, hkeeps⟩

/-- The subtree alone is every wanted file. -/
theorem mem_list_subtree (h : Wanted fs repo req rel) :
    subtree req.start.parts = [] ∨
      ∃ spec ∈ subtree req.start.parts, git.matchPathspec rel.parts spec = true := by
  unfold subtree
  split
  · exact Or.inl rfl
  · refine Or.inr ⟨_, List.mem_singleton_self _, ?_⟩
    have hpre : req.start.parts.isPrefixOf rel.parts = true :=
      List.isPrefixOf_iff_prefix.2 h.below
    simp [Git.matchPathspec, hpre]

theorem pushedSpecs_of_ne_nil {rel : List Segment} {patterns : List (List Char)}
    {capEnv : Option ℤ} (h : pushedSpecs rel patterns capEnv ≠ []) :
    pushedSpecs rel patterns capEnv = buildGitPathspecs rel patterns ∧
      (summarizeIncludePatterns patterns).2.2 = false := by
  unfold pushedSpecs at h ⊢
  cases hc : (summarizeIncludePatterns patterns).2.2 with
  | true => simp [hc] at h
  | false =>
    simp only [hc, Bool.false_eq_true, if_false] at h ⊢
    split at h
    · exact absurd rfl h
    · rename_i hcap
      exact ⟨if_neg hcap, trivial⟩

end Pushdown

/-! ## Extensions and names -/

/-- The last of components joined by `/`. -/
theorem intercalate_last : ∀ {parts : List (List Char)}, parts ≠ [] →
    (['/'].intercalate parts = parts.getLast?.getD [] ∧ parts = [parts.getLast?.getD []]) ∨
      ∃ x, ['/'].intercalate parts = x ++ '/' :: parts.getLast?.getD []
  | [c], _ => Or.inl (by simp)
  | c :: d :: rest, _ => by
    refine Or.inr ?_
    rw [List.intercalate_cons_cons, List.getLast?_cons_cons]
    rcases intercalate_last (List.cons_ne_nil d rest) with ⟨heq, -⟩ | ⟨x, hx⟩
    · exact ⟨c, by rw [heq]; simp⟩
    · exact ⟨c ++ ['/'] ++ x, by rw [hx]; simp⟩

/-- No character of it is special to `fnmatch`. -/
def NoWildcard (t : List Char) : Prop := '*' ∉ t ∧ '?' ∉ t ∧ '[' ∉ t

theorem NoWildcard.tail {c : Char} {t : List Char} (h : NoWildcard (c :: t)) :
    (c ≠ '*' ∧ c ≠ '?' ∧ c ≠ '[') ∧ NoWildcard t := by
  obtain ⟨h₁, h₂, h₃⟩ := h
  simp only [List.mem_cons, not_or] at h₁ h₂ h₃
  exact ⟨⟨Ne.symm h₁.1, Ne.symm h₂.1, Ne.symm h₃.1⟩, h₁.2, h₂.2, h₃.2⟩

theorem matchPattern_star (n : ℕ) (p s : List Char) :
    matchPattern (n + 1) ('*' :: p) s = s.tails.any (matchPattern n p ·) := by
  cases s <;> rfl

/-- A character that opens no set stands for one character. -/
theorem matchPattern_char (n : ℕ) {c : Char} {p s : List Char} (hstar : c ≠ '*')
    (hbracket : c ≠ '[') (h : matchPattern (n + 1) (c :: p) s = true) :
    ∃ d s', s = d :: s' ∧ (c = '?' ∨ c = d) ∧ matchPattern n p s' = true := by
  cases s with
  | nil => simp [matchPattern, hstar] at h
  | cons d s' =>
    simp only [matchPattern, hstar, hbracket, if_false, Bool.and_eq_true, Bool.or_eq_true,
      decide_eq_true_eq] at h
    exact ⟨d, s', rfl, h.1, h.2⟩

/-- A pattern without wildcards matches itself only. -/
theorem matchPattern_plain : ∀ (n : ℕ) {t s : List Char}, NoWildcard t →
    matchPattern n t s = true → s = t
  | 0, _, _, _, h => by simp [matchPattern] at h
  | _ + 1, [], s, _, h => by simpa [matchPattern] using h
  | n + 1, c :: t, s, ht, h => by
    obtain ⟨⟨hstar, hquestion, hbracket⟩, ht⟩ := ht.tail
    obtain ⟨d, s', rfl, hc, hm⟩ := matchPattern_char n hstar hbracket h
    rw [hc.resolve_left hquestion, matchPattern_plain n ht hm]

/-- The last component of a simple pattern. -/
structure Simple (q : List Char) (kind : Kind) (a t : List Char) : Prop where
  pattern : q = a ++ t
  anchor : a = [] ∨ ∃ b, a = b ++ ['/']
  bracket : '[' ∉ a
  tail : tailKind t = some kind

theorem isSimpleExt_some {s ext : List Char} (h : isSimpleExt s = some ext) :
    s = '*' :: ext ∧ NoWildcard ext ∧ '/' ∉ ext ∧ ext.head? = some '.' := by
  obtain ⟨⟨hpre, hstar, hquestion, hbracket, hslash⟩, he⟩ := Option.ite_none_right_eq_some.1 h
  obtain ⟨rest, rfl⟩ := List.isPrefixOf_iff_prefix.1 hpre
  obtain rfl := Option.some.inj he
  simp at hstar hquestion hbracket hslash
  refine ⟨rfl, ⟨?_, ?_, ?_⟩, ?_, rfl⟩ <;> simpa

theorem isExactName_some {s name : List Char} (h : isExactName s = some name) :
    s = name ∧ NoWildcard name ∧ '/' ∉ name ∧ name ≠ [] := by
  obtain ⟨⟨hstar, hquestion, hbracket, hslash, hne⟩, he⟩ := Option.ite_none_right_eq_some.1 h
  obtain rfl := Option.some.inj he
  exact ⟨rfl, ⟨hstar, hquestion, hbracket⟩, hslash, hne⟩

variable {kind : Kind}

/-- The last component is `*` with an extension, or a name. -/
theorem tailKind_some {s : List Char} (h : tailKind s = some kind) :
    (∃ ext, kind = .ext ext ∧ isSimpleExt s = some ext) ∨
      ∃ name, kind = .name name ∧ isExactName s = some name := by
  unfold tailKind at h
  split at h
  · rename_i ext hext
    exact Or.inl ⟨ext, (Option.some.inj h).symm, hext⟩
  · obtain ⟨name, hname, rfl⟩ := Option.map_eq_some_iff.1 h
    exact Or.inr ⟨name, rfl, hname⟩

theorem tailKind_bracket {s : List Char} (h : tailKind s = some kind) :
    '[' ∉ s := by
  rcases tailKind_some h with ⟨ext, -, he⟩ | ⟨name, -, he⟩
  · obtain ⟨rfl, hno, -⟩ := isSimpleExt_some he
    simpa using hno.2.2
  · obtain ⟨rfl, hno, -⟩ := isExactName_some he
    exact hno.2.2

/-- The components in front are `**` or have no wildcard, and the last one is simple. -/
theorem bracket_of_parts {parts : List Segment}
    (hany : ¬(parts.dropLast.any fun s => s ≠ stars && hasWildcard s) = true)
    (h : tailKind (parts.getLast?.getD []) = some kind) (hne : parts ≠ []) {part : Segment}
    (hpart : part ∈ parts) : '[' ∉ part := by
  rw [← List.dropLast_append_getLast hne, List.mem_append] at hpart
  rcases hpart with hpart | hpart
  · intro hc
    refine hany (List.any_eq_true.2 ⟨part, hpart, ?_⟩)
    have hwild : hasWildcard part = true := List.any_eq_true.2 ⟨'[', hc, by decide⟩
    have hstars : part ≠ stars := by
      rintro rfl
      revert hc
      decide
    simp [hwild, hstars]
  · rw [List.getLast?_eq_getLast_of_ne_nil hne] at h
    rw [List.mem_singleton.1 hpart]
    exact tailKind_bracket h

theorem simple_of_classify {q : List Char} (h : classify q = some kind) :
    ∃ a t, Simple q kind a t := by
  unfold classify at h
  split at h
  · exact ⟨[], q, rfl, Or.inl rfl, List.not_mem_nil, h⟩
  · rename_i hslash
    dsimp only at h
    split at h
    · cases h
    · rename_i hany
      have hne : q.splitOn '/' ≠ [] := List.splitOn_ne_nil '/' q
      have hq : ['/'].intercalate (q.splitOn '/') = q := List.intercalate_splitOn '/'
      rcases intercalate_last hne with ⟨heq, hone⟩ | ⟨x, hx⟩
      · refine absurd ?_ hslash
        rw [← hq, heq]
        have hmem : (q.splitOn '/').getLast?.getD [] ∈ q.splitOn '/' := by
          rw [hone]
          simp
        exact Joined.notMem_of_mem_splitOn hmem
      · refine ⟨x ++ ['/'], (q.splitOn '/').getLast?.getD [], ?_, Or.inr ⟨x, rfl⟩, ?_, h⟩
        · rw [List.append_assoc, List.singleton_append, ← hx, hq]
        · -- no component has a bracket
          intro hmem
          have hin : '[' ∈ ['/'].intercalate (q.splitOn '/') := by
            rw [hx]
            rcases List.mem_append.1 hmem with hmem | hmem
            · exact List.mem_append_left _ hmem
            · cases List.mem_singleton.1 hmem
          rcases Joined.mem_of_mem_intercalate hin with hc | ⟨part, hpart, hc⟩
          · cases List.mem_singleton.1 hc
          · exact bracket_of_parts hany h hne hpart hc

/-- What a simple pattern takes for an extension ends with it, and what it takes for a name is
called so. -/
def Kind.Takes (file : Segment) : Kind → Prop
  | ext value => value <:+ file
  | name value => value = file

/-- A relative path is its name, or ends with it. -/
theorem posix_last {rel : PurePath} (hne : rel.parts ≠ []) :
    rel.posix = lastPart rel ∨ ∃ x, rel.posix = x ++ '/' :: lastPart rel := by
  rw [PurePath.posix, if_neg hne]
  exact (intercalate_last hne).imp_left And.left

/-! ## A directory with brackets -/

/-- A disk without links. -/
def flatDisk : FileSystem := ⟨fun _ => false, id, fun _ => true⟩

def page : PurePath := .ofString "app/[id]/page.tsx"

def pageRepository : Repository := ⟨.ofString "/r", [page], [], (· == .join (.ofString "/r") page)⟩

/-- Git reads a component the way `fnmatch` does. -/
def fnmatchGit : Git := ⟨fnmatch, fun _ _ => false⟩

def pageRequest : Request where
  start := .ofString "app/[id]"
  includePatterns := ["**/*.tsx".toList]
  configExcludes := []
  capEnv := none
  filterRoot := none

end ChunkHound.Discovery
