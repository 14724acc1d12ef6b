import ChunkHound.ChunkDiff
import ChunkHound.GitPatterns

/-!
# The ignore engine

`IgnoreEngine` of `ignore_engine.py` : the lines of every `.gitignore` file of a tree are
rewritten into patterns relative to the root, in the order of the walk, and one `PathSpec`
matches them all. Patterns from the configuration are left out.
-/

namespace ChunkHound.Ignore

open LastMatch

/-- What is put behind a pattern for directories only. -/
def belowText (dirOnly : Bool) : List Char := if dirOnly then ['/', '*', '*'] else []

/-- `_transform_gitignore_line`. -/
def transformLine (dir : List Segment) (line : List Char) : List (List Char) :=
  let (negated, dirOnly, core) := splitMarks line
  let add (p : List Char) : List Char :=
    (if negated then ['!'] else []) ++ (p ++ belowText dirOnly)
  if dir = [] then
    if core.head? = some '/' then [add core]
    else if '/' ∈ core then [add core]
    else [add core, add ('*' :: '*' :: '/' :: core)]
  else
    let dirRel := ['/'].intercalate dir
    if core.head? = some '/' then [add (dirRel ++ '/' :: core.tail)]
    else if '/' ∈ core then [add (dirRel ++ '/' :: core)]
    else [add (dirRel ++ '/' :: core), add (dirRel ++ '/' :: '*' :: '*' :: '/' :: core)]

/-- `_read_transformed_gitignore_patterns`, for one line. -/
def transformed (dir : List Segment) (raw : List Char) : List (List Char) :=
  let line := strip raw
  if line = [] ∨ line.head? = some '#' then [] else transformLine dir line

/-- `_collect_gitignore_patterns`. -/
def collectPatterns (files : List IgnoreFile) : List (List Char) :=
  (linesOf files).flatMap fun l => transformed l.1 l.2

section Spec

variable (glob : Segment → Segment → Bool)

/-- A pattern matches the path, or a directory it lies in. `slash` : the path ends in one. -/
def specMatches (pat : Pattern) (path : List Segment) (slash : Bool) : Bool :=
  (prefixes path).any fun q => pat.covers glob (q ≠ path || slash) (q ≠ path || slash) q

/-- `PathSpec.match_file`, which drops a `./` in front. -/
def matchFile (patterns : List (List Char)) (path : List Segment) (slash : Bool) : Bool :=
  let path := if slash ∧ path = [['.']] then [] else path
  lastMatch (specMatches glob · path slash) Pattern.negated (patterns.filterMap readLine) =
    some false

/-- The path that is asked about : where the resolved path lies in the root, or all of it where it
does not. -/
def relPath (root resolved : List Segment) : List Segment :=
  if resolved = root then [['.']]
  else if root.isPrefixOf resolved then resolved.drop root.length
  else resolved

/-- `IgnoreEngine.matches`, for a path below the root. `resolve` is `Path.resolve`, and `isDir` is
of what the path leads to. -/
def engineIgnores (files : List IgnoreFile) (root : List Segment)
    (resolve : List Segment → List Segment) (path : List Segment) (isDir : Bool) : Bool :=
  let rel := relPath root (resolve (root ++ path))
  matchFile glob (collectPatterns files) rel false ||
    (isDir && matchFile glob (collectPatterns files) rel true)

end Spec

/-! ## Lines that are read as git reads them -/

/-- A component without special characters matches only itself. -/
def PlainGlob (glob : Segment → Segment → Bool) : Prop :=
  ∀ name : Segment, (∀ c ∈ name, c ∉ ['*', '?', '[', '\\']) → ∀ x, glob name x = true ↔ x = name

/-- The name of a directory. -/
def ValidName (name : Segment) : Prop := name ≠ [] ∧ '/' ∉ name

/-- A directory whose path can stand in a pattern as it is. -/
structure PlainDir (dir : List Segment) : Prop where
  names : ∀ n ∈ dir, ∀ c ∈ n, c ∉ ['*', '?', '[', '\\']
  first : ∀ n, dir.head? = some n → n.head? ≠ some '!' ∧ n.head? ≠ some '#'

/-- A line with no blanks but those git drops, something between its marks, and not `**/`
behind. -/
structure PlainLine (raw : List Char) : Prop where
  trimmed : strip raw = trimTrailing raw
  core : strip raw ≠ [] → (strip raw).head? ≠ some '#' → (splitMarks (strip raw)).2.2 ≠ []
  stars : ∀ pat, readLine raw = some pat → pat.dirOnly = true →
    pat.segments.getLast? ≠ some stars

section Rewrite

variable {glob : Segment → Segment → Bool} {dir : List Segment} {raw core : List Char}
  {path : List Segment} {slash negated dirOnly : Bool}

theorem trimTrailing_eq_self :
    ∀ {cs : List Char}, cs.getLast? ≠ some ' ' → trimTrailing cs = cs := by
  intro cs
  fun_induction trimTrailing cs with
  | case1 => simp
  | case2 => simp
  | case3 c cs ih =>
    intro h
    cases cs with
    | nil => rfl
    | cons d ds => rw [ih (by simpa using h)]
  | case4 cs htrim ih =>
    intro h
    cases cs with
    | nil => simp at h
    | cons d ds =>
      rw [ih (by simpa using h)] at htrim
      cases htrim
  | case5 cs d ds htrim ih =>
    intro h
    cases cs with
    | nil => simp at h
    | cons e es => rw [← htrim, ih (by simpa using h)]
  | case6 c cs _ _ _ ih =>
    intro h
    cases cs with
    | nil => rfl
    | cons d ds => rw [ih (by simpa using h)]

variable {body : List Char}

/-- A rewritten line is read with its marks. -/
theorem readLine_marked (hne : body ≠ [])
    (hhead : negated = false → body.head? ≠ some '!' ∧ body.head? ≠ some '#')
    (hslash : body.getLast? ≠ some '/') (hspace : body.getLast? ≠ some ' ') :
    readLine ((if negated then ['!'] else []) ++ body) =
      some ⟨negated, false, coreSegments body⟩ := by
  cases negated with
  | true =>
    have hlast : ('!' :: body).getLast? = body.getLast? := by
      cases body with
      | nil => exact absurd rfl hne
      | cons c cs => simp
    have htrim : trimTrailing ('!' :: body) = '!' :: body :=
      trimTrailing_eq_self (by rw [hlast]; exact hspace)
    simp [readLine, htrim, splitMarks, hslash]
  | false =>
    obtain ⟨hmark, hcomment⟩ := hhead rfl
    have htrim : trimTrailing body = body := trimTrailing_eq_self hspace
    simp [readLine, htrim, splitMarks, hslash, hne, hmark, hcomment]

theorem strip_getLast (cs : List Char) : (strip cs).getLast? ≠ some ' ' := by
  intro h
  have hne : strip cs ≠ [] := fun hnil => by simp [hnil] at h
  have hlast := List.rdropWhile_last_not isSpace (cs.dropWhile isSpace) hne
  rw [List.getLast?_eq_some_getLast hne, Option.some_inj] at h
  refine hlast ?_
  change isSpace ((strip cs).getLast hne) = true
  rw [h]
  decide

variable {line : List Char}

/-- What is left of a line between its marks. -/
theorem splitMarks_spec (hcomment : line.head? ≠ some '#')
    (hspace : line.getLast? ≠ some ' ') (h : splitMarks line = (negated, dirOnly, core))
    (hcore : core ≠ []) :
    (negated = false → core.head? ≠ some '!' ∧ core.head? ≠ some '#') ∧
      (dirOnly = false → core.getLast? ≠ some '/' ∧ core.getLast? ≠ some ' ') := by
  simp only [splitMarks, Prod.mk.injEq] at h
  obtain ⟨rfl, rfl, rfl⟩ := h
  refine ⟨fun hneg => ?_, fun hdir => ?_⟩
  · have hmark : line.head? ≠ some '!' := by simpa using hneg
    simp only [hmark, if_false] at hcore ⊢
    split
    · rename_i hdir
      simp only [hdir, if_true] at hcore
      cases line with
      | nil => simp at hcore
      | cons c cs =>
        cases cs with
        | nil => simp at hcore
        | cons d ds => exact ⟨hmark, hcomment⟩
    · exact ⟨hmark, hcomment⟩
  · rw [decide_eq_false_iff_not] at hdir
    simp only [hdir, if_false] at hcore ⊢
    refine ⟨hdir, ?_⟩
    split
    · rename_i hneg
      rw [if_pos hneg] at hcore
      cases line with
      | nil => simp at hcore
      | cons c cs =>
        cases cs with
        | nil => simp at hcore
        | cons d ds => simpa using hspace
    · exact hspace

/-- The components of `belowText`. -/
def belowSegments (dirOnly : Bool) : List Segment := if dirOnly then [stars] else []

theorem splitOn_below (cs : List Char) (dirOnly : Bool) :
    (cs ++ belowText dirOnly).splitOn '/' = cs.splitOn '/' ++ belowSegments dirOnly := by
  cases dirOnly with
  | false => simp [belowText, belowSegments]
  | true => exact List.splitOn_append_cons_self cs ['*', '*']

theorem components_below (hcore : core ≠ []) (dirOnly : Bool) :
    components (core ++ belowText dirOnly) = components core ++ belowSegments dirOnly := by
  cases core with
  | nil => exact absurd rfl hcore
  | cons c cs =>
    unfold components
    split
    · rename_i h
      have hc : (c :: cs).head? = some '/' := h
      rw [if_pos hc]
      exact splitOn_below cs dirOnly
    · rename_i h
      have hc : ¬ (c :: cs).head? = some '/' := h
      rw [if_neg hc]
      exact splitOn_below (c :: cs) dirOnly

/-- A pattern with a `/` somewhere is split there. -/
theorem coreSegments_below (hcore : core ≠ []) (hslash : '/' ∈ core ++ belowText dirOnly) :
    coreSegments (core ++ belowText dirOnly) = components core ++ belowSegments dirOnly := by
  rw [coreSegments, if_pos hslash, components_below hcore]

/-- A pattern relative to the root begins with the name of the first directory. -/
theorem rel_head {n : Segment} (hn : ValidName n) (ns : List Segment) (rest : List Char) :
    (['/'].intercalate (n :: ns) ++ rest).head? = n.head? := by
  obtain ⟨hne, -⟩ := hn
  cases n with
  | nil => exact absurd rfl hne
  | cons c cs => cases ns <;> simp [List.intercalate]

/-- The directory in front of a pattern is split into its names. -/
theorem components_rel (hvalid : ∀ n ∈ dir, ValidName n) (hdir : dir ≠ []) (rest : List Char) :
    components (['/'].intercalate dir ++ '/' :: rest) = dir ++ rest.splitOn '/' := by
  have hhead : (['/'].intercalate dir ++ '/' :: rest).head? ≠ some '/' := by
    cases dir with
    | nil => exact absurd rfl hdir
    | cons n ns =>
      have hn := hvalid n List.mem_cons_self
      rw [rel_head hn]
      exact fun h => hn.2 (List.mem_of_mem_head? h)
  rw [components, if_neg hhead, List.splitOn_append_cons_self, List.splitOn_intercalate]
  · exact fun n hn => (hvalid n hn).2
  · exact hdir

/-- The pattern of one rewritten line. -/
theorem readLine_add (hne : body ≠ [])
    (hhead : negated = false → body.head? ≠ some '!' ∧ body.head? ≠ some '#')
    (hlast : dirOnly = false → body.getLast? ≠ some '/' ∧ body.getLast? ≠ some ' ') :
    readLine ((if negated then ['!'] else []) ++ (body ++ belowText dirOnly)) =
      some ⟨negated, false, coreSegments (body ++ belowText dirOnly)⟩ := by
  have hbody : (body ++ belowText dirOnly).head? = body.head? := by
    cases body with
    | nil => exact absurd rfl hne
    | cons c cs => rfl
  refine readLine_marked (by simp [hne]) (fun hneg => ?_) ?_ ?_
  · rw [hbody]
    exact hhead hneg
  · cases dirOnly with
    | true => simp [belowText]
    | false => simpa [belowText] using (hlast rfl).1
  · cases dirOnly with
    | true => simp [belowText]
    | false => simpa [belowText] using (hlast rfl).2

/-- The pattern a line stands for, relative to the root. -/
def rootPattern (dir : List Segment) (pat : Pattern) : Pattern :=
  ⟨pat.negated, false, dir ++ (pat.segments ++ belowSegments pat.dirOnly)⟩

/-- The patterns a line is rewritten into : the one relative to the root, and one that matches
no more. -/
def RewrittenTo (glob : Segment → Segment → Bool) (patterns : List Pattern) (main : Pattern) :
    Prop :=
  ∃ extra, patterns = extra ++ [main] ∧ ∀ p ∈ extra, p.negated = main.negated ∧
    ∀ path slash, specMatches glob p path slash = true → specMatches glob main path slash = true

theorem rewrittenTo_single (glob : Segment → Segment → Bool) (main : Pattern) :
    RewrittenTo glob [main] main := ⟨[], rfl, fun _ h => nomatch h⟩

/-- A name directly in a directory is also one at any depth. -/
theorem rewrittenTo_pair (hdir : ∀ n ∈ dir, Literal glob n) {ps : List Segment} (hps : ps ≠ []) :
    RewrittenTo glob [⟨negated, false, dir ++ ps⟩, ⟨negated, false, dir ++ stars :: ps⟩]
      ⟨negated, false, dir ++ stars :: ps⟩ := by
  refine ⟨[⟨negated, false, dir ++ ps⟩], rfl, fun p hp => ?_⟩
  obtain rfl := List.mem_singleton.1 hp
  refine ⟨rfl, fun path slash h => ?_⟩
  unfold specMatches at h ⊢
  rw [List.any_eq_true] at h ⊢
  obtain ⟨q, hq, hm⟩ := h
  refine ⟨q, hq, ?_⟩
  simp only [Pattern.covers, Bool.not_false, Bool.true_or, Bool.true_and] at hm ⊢
  obtain ⟨rest, hrest, hm⟩ := (matchSegments_literal hdir).1 hm
  refine (matchSegments_literal hdir).2 ⟨rest, hrest, ?_⟩
  exact (matchSegments_star hps).2 ⟨[], rest, rfl, hm⟩

theorem literal_of_plain (hglob : PlainGlob glob) (hdir : PlainDir dir) :
    ∀ n ∈ dir, Literal glob n := fun n hn =>
  ⟨fun hstars => hdir.names n hn '*' (by simp [hstars, stars]) (by simp),
    hglob n (hdir.names n hn)⟩

theorem components_of_not_mem (h : '/' ∉ core) : components core = [core] := by
  have hhead : core.head? ≠ some '/' := fun hs => h (List.mem_of_mem_head? hs)
  rw [components, if_neg hhead, List.splitOn_eq_singleton h]

variable {pat : Pattern}

theorem rewritten_root (hpat : pat = ⟨negated, dirOnly, coreSegments core⟩) (hcore : core ≠ [])
    (hhead : negated = false → core.head? ≠ some '!' ∧ core.head? ≠ some '#')
    (hlast : dirOnly = false → core.getLast? ≠ some '/' ∧ core.getLast? ≠ some ' ')
    (hmarks : splitMarks line = (negated, dirOnly, core)) :
    RewrittenTo glob ((transformLine [] line).filterMap readLine) (rootPattern [] pat) := by
  subst hpat
  have hadd := readLine_add hcore hhead hlast
  by_cases hslash : '/' ∈ core
  · have htransform : transformLine [] line =
        [(if negated then ['!'] else []) ++ (core ++ belowText dirOnly)] := by
      unfold transformLine
      simp only [hmarks, if_true]
      split_ifs <;> rfl
    have hsegments : coreSegments (core ++ belowText dirOnly) =
        coreSegments core ++ belowSegments dirOnly := by
      rw [coreSegments_below hcore (List.mem_append_left _ hslash), coreSegments, if_pos hslash]
    rw [htransform, List.filterMap_cons_some hadd, List.filterMap_nil, hsegments]
    exact rewrittenTo_single glob _
  · have hfirst : core.head? ≠ some '/' := fun hs => hslash (List.mem_of_mem_head? hs)
    have htransform : transformLine [] line =
        [(if negated then ['!'] else []) ++ (core ++ belowText dirOnly),
          (if negated then ['!'] else []) ++
            (('*' :: '*' :: '/' :: core) ++ belowText dirOnly)] := by
      unfold transformLine
      simp only [hmarks, if_true, hfirst, if_false, hslash]
    have hend : ('*' :: '*' :: '/' :: core).getLast? = core.getLast? :=
      List.getLast?_append_of_ne_nil ['*', '*', '/'] hcore
    have hdeep : readLine ((if negated then ['!'] else []) ++
        (('*' :: '*' :: '/' :: core) ++ belowText dirOnly)) =
        some ⟨negated, false, coreSegments (('*' :: '*' :: '/' :: core) ++ belowText dirOnly)⟩ :=
      readLine_add (by simp) (by simp) (by rwa [hend])
    have hdeepSegments : coreSegments (('*' :: '*' :: '/' :: core) ++ belowText dirOnly) =
        coreSegments core ++ belowSegments dirOnly := by
      rw [coreSegments_below (by simp) (by simp), coreSegments, if_neg hslash]
      have hsplit : components ('*' :: '*' :: '/' :: core) = stars :: core.splitOn '/' :=
        List.splitOn_append_cons_self ['*', '*'] core
      rw [hsplit, List.splitOn_eq_singleton hslash]
    rw [htransform, List.filterMap_cons_some hadd, List.filterMap_cons_some hdeep,
      List.filterMap_nil, hdeepSegments]
    cases dirOnly with
    | false =>
      have hsame : coreSegments (core ++ belowText false) =
          coreSegments core ++ belowSegments false := by simp [belowText, belowSegments]
      rw [hsame]
      exact ⟨[_], rfl, fun p hp => by
        obtain rfl := List.mem_singleton.1 hp
        exact ⟨rfl, fun _ _ => id⟩⟩
    | true =>
      rw [coreSegments_below hcore (by simp [belowText]), components_of_not_mem hslash,
        rootPattern, coreSegments, if_neg hslash]
      have hroot : ∀ n ∈ ([] : List Segment), Literal glob n := fun _ h => nomatch h
      exact rewrittenTo_pair hroot (by simp)

theorem rewritten_dir (hglob : PlainGlob glob) (hvalid : ∀ n ∈ dir, ValidName n)
    (hdir : PlainDir dir) (hne : dir ≠ [])
    (hpat : pat = ⟨negated, dirOnly, coreSegments core⟩) (hcore : core ≠ [])
    (hlast : dirOnly = false → core.getLast? ≠ some '/' ∧ core.getLast? ≠ some ' ')
    (hmarks : splitMarks line = (negated, dirOnly, core)) :
    RewrittenTo glob ((transformLine dir line).filterMap readLine) (rootPattern dir pat) := by
  subst hpat
  have hrel : ∀ rest : List Char,
      (dirOnly = false → ('/' :: rest).getLast? ≠ some '/' ∧ ('/' :: rest).getLast? ≠ some ' ') →
      readLine ((if negated then ['!'] else []) ++
        ((['/'].intercalate dir ++ '/' :: rest) ++ belowText dirOnly)) =
        some ⟨negated, false, dir ++ (rest.splitOn '/' ++ belowSegments dirOnly)⟩ := by
    intro rest hend
    have hlastRest : (['/'].intercalate dir ++ '/' :: rest).getLast? = ('/' :: rest).getLast? :=
      List.getLast?_append_of_ne_nil _ (by simp)
    rw [readLine_add (by simp) ?_ (by rwa [hlastRest]), coreSegments_below (by simp) (by simp),
      components_rel hvalid hne, List.append_assoc]
    intro _
    obtain ⟨n, ns, rfl⟩ := List.exists_cons_of_ne_nil hne
    rw [rel_head (hvalid n List.mem_cons_self)]
    exact hdir.first n rfl
  have hcoreEnd : ('/' :: core).getLast? = core.getLast? :=
    List.getLast?_append_of_ne_nil ['/'] hcore
  by_cases hslash : '/' ∈ core
  · have hsegments : coreSegments core = components core := by rw [coreSegments, if_pos hslash]
    by_cases hfirst : core.head? = some '/'
    · obtain ⟨c, rest, rfl⟩ := List.exists_cons_of_ne_nil hcore
      obtain rfl : c = '/' := by simpa using hfirst
      have htransform : transformLine dir line = [(if negated then ['!'] else []) ++
          ((['/'].intercalate dir ++ '/' :: rest) ++ belowText dirOnly)] := by
        unfold transformLine
        simp only [hmarks, if_neg hne, List.head?_cons, if_true, List.tail_cons]
      rw [htransform, List.filterMap_cons_some (hrel rest hlast), List.filterMap_nil,
        rootPattern, hsegments, components, if_pos hfirst, List.tail_cons]
      exact rewrittenTo_single glob _
    · have htransform : transformLine dir line = [(if negated then ['!'] else []) ++
          ((['/'].intercalate dir ++ '/' :: core) ++ belowText dirOnly)] := by
        unfold transformLine
        simp only [hmarks, if_neg hne, hfirst, if_false, hslash, if_true]
      rw [htransform, List.filterMap_cons_some (hrel core (by rwa [hcoreEnd])),
        List.filterMap_nil, rootPattern, hsegments, components, if_neg hfirst]
      exact rewrittenTo_single glob _
  · have hfirst : core.head? ≠ some '/' := fun hs => hslash (List.mem_of_mem_head? hs)
    have hend : ('/' :: '*' :: '*' :: '/' :: core).getLast? = core.getLast? :=
      List.getLast?_append_of_ne_nil ['/', '*', '*', '/'] hcore
    have htransform : transformLine dir line = [(if negated then ['!'] else []) ++
        ((['/'].intercalate dir ++ '/' :: core) ++ belowText dirOnly),
        (if negated then ['!'] else []) ++
        ((['/'].intercalate dir ++ '/' :: '*' :: '*' :: '/' :: core) ++ belowText dirOnly)] := by
      unfold transformLine
      simp only [hmarks, if_neg hne, hfirst, if_false, hslash]
    have hsplit : ('*' :: '*' :: '/' :: core).splitOn '/' = stars :: core.splitOn '/' :=
      List.splitOn_append_cons_self ['*', '*'] core
    rw [htransform, List.filterMap_cons_some (hrel core (by rwa [hcoreEnd])),
      List.filterMap_cons_some (hrel _ (by rwa [hend])), List.filterMap_nil, hsplit,
      List.splitOn_eq_singleton hslash, rootPattern, coreSegments, if_neg hslash]
    exact rewrittenTo_pair (literal_of_plain hglob hdir) (by simp)

/-- A line that git reads is rewritten into its pattern relative to the root. -/
theorem rewritten (hglob : PlainGlob glob) (hvalid : ∀ n ∈ dir, ValidName n)
    (hdir : PlainDir dir) (hraw : PlainLine raw) (hread : readLine raw = some pat) :
    RewrittenTo glob ((transformed dir raw).filterMap readLine) (rootPattern dir pat) := by
  unfold readLine at hread
  rw [← hraw.trimmed] at hread
  simp only at hread
  split at hread
  · cases hread
  · rename_i hline
    obtain ⟨hnonempty, hcomment⟩ := not_or.1 hline
    rcases hmarks : splitMarks (strip raw) with ⟨negated, dirOnly, core⟩
    rw [hmarks] at hread
    have hpat := (Option.some.inj hread).symm
    have hcore : core ≠ [] := by
      have hc := hraw.core hnonempty hcomment
      rwa [hmarks] at hc
    obtain ⟨hhead, hlast⟩ := splitMarks_spec hcomment (strip_getLast raw) hmarks hcore
    unfold transformed
    simp only [hline, if_false]
    by_cases hroot : dir = []
    · subst hroot
      exact rewritten_root hpat hcore hhead hlast hmarks
    · exact rewritten_dir hglob hvalid hdir hroot hpat hcore hlast hmarks

/-- A line that git does not read is left out. -/
theorem transformed_of_unread (hraw : PlainLine raw) (hread : readLine raw = none) :
    transformed dir raw = [] := by
  unfold readLine at hread
  rw [← hraw.trimmed] at hread
  simp only at hread
  split at hread
  · rename_i hline
    simp only [transformed, hline, if_true]
  · cases hread

end Rewrite

end ChunkHound.Ignore
