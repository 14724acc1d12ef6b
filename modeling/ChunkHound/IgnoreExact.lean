import ChunkHound.IgnoreEngine

/-!
# The ignore engine and git's rule

The rewritten lines match what the lines match (`specMatches_rootPattern`). What is left of the
difference is when they are asked : git asks about a path and about each directory it lies in,
and one that is excluded settles it; the engine asks once, and a negated line that matches any
of them and comes last settles it. And the engine asks about what a path resolves to, and git about
the path itself, a link or not. `engineIgnores_iff` says when the two agree.
-/

namespace ChunkHound.Ignore

open LastMatch

variable {glob : Segment → Segment → Bool} {files : List IgnoreFile} {path : List Segment}

/-! ## One line -/

theorem mem_prefixes {q : List Segment} : q ∈ prefixes path ↔ q <+: path ∧ q ≠ [] := by
  simp [prefixes, List.mem_inits]

/-- The line matches a directory only by the slash behind it, as `a/**` does `a/`. -/
def SlashOnly (glob : Segment → Segment → Bool) (l : List Segment × List Char)
    (path : List Segment) : Prop :=
  ∃ pat rest, readLine l.2 = some pat ∧ pat.dirOnly = false ∧ path = l.1 ++ rest ∧
    matchSegments glob true pat.segments rest = true ∧
    matchSegments glob false pat.segments rest = false

theorem segments_ne_nil {line : List Char} {pat : Pattern} (h : readLine line = some pat) :
    pat.segments ≠ [] := by
  unfold readLine at h
  simp only at h
  split at h
  · cases h
  · obtain rfl := Option.some.inj h
    simp only [coreSegments]
    split
    · exact List.splitOn_ne_nil '/' _
    · simp

section Line

variable {dir : List Segment} {raw : List Char} {pat : Pattern} {slash : Bool}

variable {ps rest : List Segment}

/-- What a pattern for directories reaches lies in a directory it matches. -/
theorem covers_of_dirOnly (hps : ps ≠ [])
    (hstars : ps.getLast? ≠ some stars) (hpre : dir ++ rest <+: path)
    (hm : matchSegments glob (dir ++ rest ≠ path || slash) (ps ++ [stars]) rest = true) :
    ∃ above, dir ++ above <+: path ∧ matchSegments glob false ps above = true ∧
      (dir ++ above ≠ path ∨ slash = true) := by
  obtain ⟨above, below, rfl, habove, hbelow⟩ := (matchSegments_append_stars hps hstars).1 hm
  rw [← List.append_assoc] at hpre
  refine ⟨above, (List.prefix_append _ _).trans hpre, habove, ?_⟩
  by_cases hend : below = []
  · subst hend
    simpa using hbelow
  · refine Or.inl fun heq => hend ?_
    rw [← heq] at hpre
    have hlen := hpre.length_le
    rw [List.length_append] at hlen
    exact List.eq_nil_of_length_eq_zero (by omega)

/-- What a pattern reaches only by the slash behind a directory, a longer path reaches without. -/
theorem covers_of_slash (hpre : dir ++ rest <+: path)
    (hm : matchSegments glob (dir ++ rest ≠ path || slash) ps rest = true)
    (hend : slash = true → dir ++ rest = path → matchSegments glob true ps rest = true →
      matchSegments glob false ps rest = true) :
    ∃ above, dir ++ above <+: path ∧ matchSegments glob false ps above = true := by
  by_cases hfalse : matchSegments glob false ps rest = true
  · exact ⟨rest, hpre, hfalse⟩
  · obtain ⟨more, rfl⟩ := hpre
    cases more with
    | nil =>
      cases slash with
      | false => exact absurd (by simpa using hm) hfalse
      | true => exact absurd (hend rfl (by simp) (by simpa using hm)) hfalse
    | cons x more =>
      have hbelow := (matchSegments_slash hm).resolve_left hfalse x
      exact ⟨rest ++ [x], ⟨more, by simp⟩, hbelow⟩

/-- A path below a directory that a line matches, the directories on the way included. -/
theorem specMatches_rootPattern (hdir : ∀ n ∈ dir, Literal glob n)
    (hread : readLine raw = some pat)
    (hstars : pat.dirOnly = true → pat.segments.getLast? ≠ some stars)
    (hslash : slash = true → ¬ SlashOnly glob (dir, raw) path) :
    specMatches glob (rootPattern dir pat) path slash =
      (prefixes path).any fun q => lineCovers glob (dir, raw) q (q ≠ path || slash) := by
  have hps := segments_ne_nil hread
  rw [Bool.eq_iff_iff, specMatches, List.any_eq_true, List.any_eq_true]
  simp only [lineCovers, hread, Pattern.covers, rootPattern, Bool.not_false, Bool.true_or,
    Bool.true_and, Bool.and_eq_true, List.isPrefixOf_iff_prefix, decide_eq_true_eq,
    Bool.or_eq_true, Bool.not_eq_true']
  constructor
  · rintro ⟨q, hq, hm⟩
    obtain ⟨hpre, -⟩ := mem_prefixes.1 hq
    obtain ⟨rest, rfl, hm⟩ := (matchSegments_literal hdir).1 hm
    -- what lies below the directory is not empty
    have hrest : ∀ above, matchSegments glob false pat.segments above = true → above ≠ [] := by
      rintro above habove rfl
      rw [matchSegments_nil hps] at habove
      cases habove
    cases hdirOnly : pat.dirOnly with
    | true =>
      rw [hdirOnly] at hm
      obtain ⟨above, hbelow, habove, hkind⟩ := covers_of_dirOnly hps (hstars hdirOnly) hpre hm
      exact ⟨dir ++ above, mem_prefixes.2 ⟨hbelow, by simp [hrest above habove]⟩,
        ⟨⟨above, rfl⟩, by simp [hrest above habove]⟩, Or.inr hkind, by rwa [List.drop_left]⟩
    | false =>
      rw [hdirOnly] at hm
      simp only [belowSegments, Bool.false_eq_true, if_false, List.append_nil] at hm
      have hend : slash = true → dir ++ rest = path →
          matchSegments glob true pat.segments rest = true →
          matchSegments glob false pat.segments rest = true := by
        intro hs hq' htrue
        by_contra hfalse
        exact hslash hs ⟨pat, rest, hread, hdirOnly, hq'.symm, htrue, by simpa using hfalse⟩
      obtain ⟨above, hbelow, habove⟩ := covers_of_slash hpre hm hend
      exact ⟨dir ++ above, mem_prefixes.2 ⟨hbelow, by simp [hrest above habove]⟩,
        ⟨⟨above, rfl⟩, by simp [hrest above habove]⟩, Or.inl rfl, by rwa [List.drop_left]⟩
  · rintro ⟨q, hq, ⟨⟨rest, rfl⟩, hne⟩, hkind, hm⟩
    rw [List.drop_left] at hm
    refine ⟨dir ++ rest, hq, (matchSegments_literal hdir).2 ⟨rest, rfl, ?_⟩⟩
    cases hdirOnly : pat.dirOnly with
    | true =>
      refine (matchSegments_append_stars hps (hstars hdirOnly)).2 ⟨rest, [], by simp, hm, Or.inr ?_⟩
      simpa [hdirOnly] using hkind
    | false =>
      simp only [belowSegments, Bool.false_eq_true, if_false, List.append_nil]
      exact matchSegments_mono hm

end Line

/-! ## All lines at once -/

/-- The files of a tree in the order of the walk : a directory before what lies below it. -/
structure Walked (files : List IgnoreFile) : Prop where
  names : ∀ f ∈ files, ∀ n ∈ f.dir, ValidName n
  topDown : files.Pairwise fun f g => ¬ g.dir <+: f.dir

/-- Every line is read as git reads it. -/
structure PlainFiles (files : List IgnoreFile) : Prop where
  dirs : ∀ f ∈ files, PlainDir f.dir
  lines : ∀ f ∈ files, ∀ raw ∈ f.lines, PlainLine raw

/-- The line matches the path or a directory it lies in. -/
def lineReaches (glob : Segment → Segment → Bool) (l : List Segment × List Char)
    (path : List Segment) (isDir : Bool) : Bool :=
  (prefixes path).any fun q => lineCovers glob l q (q ≠ path || isDir)

/-- What the last line that does so says : that it is negated, or not. -/
def lastLine (glob : Segment → Segment → Bool) (files : List IgnoreFile) (path : List Segment)
    (isDir : Bool) : Option Bool :=
  lastMatch (lineReaches glob · path isDir) lineNegates (linesOf files)

theorem mem_linesOf {l : List Segment × List Char} :
    l ∈ linesOf files ↔ ∃ f ∈ files, f.dir = l.1 ∧ l.2 ∈ f.lines := by
  simp only [linesOf, List.mem_flatMap, List.mem_map]
  constructor
  · rintro ⟨f, hf, line, hline, rfl⟩
    exact ⟨f, hf, rfl, hline⟩
  · rintro ⟨f, hf, hdir, hline⟩
    exact ⟨f, hf, l.2, hline, by rw [hdir]⟩

section Engine

variable {slash : Bool} {l : List Segment × List Char}

/-- The patterns of one line match when the line does, and have its sign. -/
theorem transformed_line (hglob : PlainGlob glob) (hwalked : Walked files)
    (hplain : PlainFiles files) (hl : l ∈ linesOf files)
    (hslash : slash = true → ¬ SlashOnly glob l path) :
    (∀ p ∈ (transformed l.1 l.2).filterMap readLine, p.negated = lineNegates l) ∧
      ((transformed l.1 l.2).filterMap readLine).any (specMatches glob · path slash) =
        lineReaches glob l path slash := by
  obtain ⟨f, hf, hdir, hline⟩ := mem_linesOf.1 hl
  have hraw := hplain.lines f hf l.2 hline
  cases hread : readLine l.2 with
  | none =>
    rw [transformed_of_unread hraw hread]
    exact ⟨(fun p hp => nomatch hp), by simp [lineReaches, lineCovers, hread]⟩
  | some pat =>
    have hvalid := hwalked.names f hf
    have hdirs := hplain.dirs f hf
    rw [hdir] at hvalid hdirs
    obtain ⟨extra, hpatterns, hextra⟩ := rewritten hglob hvalid hdirs hraw hread
    have hsign : (rootPattern l.1 pat).negated = lineNegates l := by
      simp [rootPattern, lineNegates, hread]
    rw [hpatterns]
    refine ⟨fun p hp => ?_, ?_⟩
    · rcases List.mem_append.1 hp with hp | hp
      · rw [(hextra p hp).1, hsign]
      · rw [List.mem_singleton.1 hp, hsign]
    · have hmain := specMatches_rootPattern (literal_of_plain hglob hdirs) hread
        (hraw.stars pat hread) hslash
      rw [List.any_append, List.any_cons, List.any_nil, Bool.or_false, hmain]
      change (extra.any _ || lineReaches glob l path slash) = lineReaches glob l path slash
      rw [Bool.or_eq_right_iff_imp, List.any_eq_true]
      rintro ⟨p, hp, hm⟩
      have hm := (hextra p hp).2 path slash hm
      rwa [hmain] at hm

theorem matchFile_collect (hglob : PlainGlob glob) (hwalked : Walked files)
    (hplain : PlainFiles files) (hdot : ['.'] ∉ path)
    (hslash : slash = true → ∀ l ∈ linesOf files, ¬ SlashOnly glob l path) :
    matchFile glob (collectPatterns files) path slash =
      decide (lastLine glob files path slash = some false) := by
  have hline : ∀ l ∈ linesOf files, _ := fun l hl =>
    transformed_line hglob hwalked hplain hl fun hs => hslash hs l hl
  have hpath : ¬ (slash = true ∧ path = [['.']]) := by
    rintro ⟨-, rfl⟩
    exact hdot List.mem_cons_self
  unfold matchFile collectPatterns lastLine
  rw [if_neg hpath]
  dsimp only
  rw [List.filterMap_flatMap, lastMatch_flatMap fun l hl => (hline l hl).1,
    lastMatch_congr fun l hl => (hline l hl).2]

/-- The engine asks about the place in the root that a path resolves to. -/
theorem relPath_append {root target : List Segment} (h : target ≠ []) :
    relPath root (root ++ target) = target := by
  have hprefix : root.isPrefixOf (root ++ target) = true :=
    List.isPrefixOf_iff_prefix.2 (List.prefix_append root target)
  rw [relPath, if_neg (by simpa using h), if_pos hprefix, List.drop_left]

end Engine

/-! ## The lines above a path -/

theorem flatMap_filter_dir : ∀ {ds : List (List Segment)} {fs : List IgnoreFile},
    ds.Pairwise (fun d d' => d <+: d' ∧ d ≠ d') → (∀ f ∈ fs, f.dir ∈ ds) →
    fs.Pairwise (fun f g => ¬ g.dir <+: f.dir) →
    fs = ds.flatMap fun d => fs.filter (·.dir = d)
  | [], fs, _, hmem, _ => by
    cases fs with
    | nil => rfl
    | cons f fs => exact nomatch hmem f List.mem_cons_self
  | d :: ds, [], _, _, _ => by simp
  | d :: ds, f :: fs, hds, hmem, hfs => by
    obtain ⟨hd, hds⟩ := List.pairwise_cons.1 hds
    obtain ⟨hf, hfs'⟩ := List.pairwise_cons.1 hfs
    have habove : ∀ g ∈ f :: fs, d <+: g.dir := fun g hg => by
      rcases List.mem_cons.1 (hmem g hg) with heq | hg
      · rw [heq]
      · exact (hd _ hg).1
    -- only the first file can be the one of the first directory
    have hrest : ∀ g ∈ fs, g.dir ≠ d := fun g hg heq =>
      hf g hg (heq ▸ habove f List.mem_cons_self)
    have hmem' : ∀ g ∈ fs, g.dir ∈ ds := fun g hg =>
      (List.mem_cons.1 (hmem g (List.mem_cons_of_mem f hg))).resolve_left (hrest g hg)
    have hnone : fs.filter (·.dir = d) = [] := by
      simpa [List.filter_eq_nil_iff] using hrest
    by_cases hfirst : f.dir = d
    · have hother : ∀ d' ∈ ds, (f :: fs).filter (·.dir = d') = fs.filter (·.dir = d') := by
        intro d' hd'
        rw [List.filter_cons_of_neg]
        simpa [hfirst] using (hd d' hd').2
      have ih := flatMap_filter_dir hds hmem' hfs'
      rw [List.flatMap_cons, List.filter_cons_of_pos (by simpa using hfirst), hnone,
        List.flatMap_congr hother, ← ih]
      rfl
    · have hall : ∀ g ∈ f :: fs, g.dir ∈ ds := fun g hg => by
        rcases List.mem_cons.1 hg with rfl | hg
        · exact (List.mem_cons.1 (hmem g List.mem_cons_self)).resolve_left hfirst
        · exact hmem' g hg
      rw [List.flatMap_cons, List.filter_cons_of_neg (by simpa using hfirst), hnone,
        List.nil_append]
      exact flatMap_filter_dir hds hall hfs

/-- The directory is above the path. -/
def isAbove (dir path : List Segment) : Bool := dir.isPrefixOf path && dir ≠ path

theorem linesOf_filter (p : List Segment → Bool) :
    linesOf (files.filter fun f => p f.dir) = (linesOf files).filter fun l => p l.1 := by
  induction files with
  | nil => rfl
  | cons f fs ih =>
    have hcons : linesOf (f :: fs) = (f.lines.map fun line => (f.dir, line)) ++ linesOf fs := rfl
    rw [hcons, List.filter_append, ← ih, List.filter_map]
    by_cases hp : p f.dir = true
    · simp [linesOf, Function.comp_def, hp]
    · simp [Function.comp_def, hp]

theorem linesAbove_eq (hwalked : Walked files) (path : List Segment) :
    linesAbove files path = (linesOf files).filter fun l => isAbove l.1 path := by
  rw [← linesOf_filter (isAbove · path)]
  have hds : ((List.range path.length).map path.take).Pairwise fun d d' => d <+: d' ∧ d ≠ d' := by
    rw [List.pairwise_map]
    refine List.pairwise_lt_range.imp_of_mem fun hi hj hlt => ?_
    rw [List.mem_range] at hi hj
    refine ⟨List.take_prefix_take_left (Nat.le_of_lt hlt), fun heq => ?_⟩
    have hlen := congrArg List.length heq
    simp only [List.length_take] at hlen
    omega
  have hmem : ∀ f ∈ files.filter fun f => isAbove f.dir path,
      f.dir ∈ (List.range path.length).map path.take := by
    intro f hf
    have habove := List.of_mem_filter hf
    simp only [isAbove, Bool.and_eq_true, List.isPrefixOf_iff_prefix, decide_eq_true_eq] at habove
    obtain ⟨habove, hne⟩ := habove
    rw [List.mem_map]
    refine ⟨f.dir.length, List.mem_range.2 ?_, (List.prefix_iff_eq_take.1 habove).symm⟩
    refine Nat.lt_of_le_of_ne habove.length_le fun hlen => hne ?_
    exact habove.eq_of_length hlen
  have hsplit := flatMap_filter_dir hds hmem (hwalked.topDown.filter _)
  have hsame : ∀ d ∈ (List.range path.length).map path.take,
      (files.filter fun f => isAbove f.dir path).filter (·.dir = d) =
        files.filter (·.dir = d) := by
    intro d hd
    obtain ⟨n, hn, rfl⟩ := List.mem_map.1 hd
    rw [List.mem_range] at hn
    rw [List.filter_filter]
    refine List.filter_congr fun f _ => ?_
    by_cases hf : f.dir = path.take n
    · have hne : path.take n ≠ path := fun heq => by
        have hlen := congrArg List.length heq
        rw [List.length_take] at hlen
        omega
      simp [isAbove, hf, hne, List.take_prefix]
    · simp [hf]
  rw [hsplit, List.flatMap_congr hsame, List.flatMap_map]
  unfold linesAbove linesOf
  rw [List.flatMap_assoc]

/-- Which lines are asked about a path is settled by their directories. -/
theorem status_eq (hwalked : Walked files) (q : List Segment) (isDir : Bool) :
    status glob files q isDir = lastMatch (lineCovers glob · q isDir) lineNegates
      (linesOf files) := by
  rw [status, linesAbove_eq hwalked]
  refine lastMatch_filter _ fun l _ hcovers => ?_
  unfold lineCovers at hcovers
  split at hcovers
  · cases hcovers
  · simp only [Bool.and_eq_true] at hcovers
    simpa [isAbove] using hcovers.1

/-! ## When the two agree -/

/-- The path may be asked about at once : when the last line that matches it or a directory it
lies in is negated, the last line that matches each of these is negated too, and it stays so
when the lines for directories only are not asked about the path itself. -/
def AskedAtOnce (glob : Segment → Segment → Bool) (files : List IgnoreFile)
    (path : List Segment) (isDir : Bool) : Prop :=
  lastLine glob files path isDir = some true →
    (∀ q ∈ prefixes path, status glob files q (q ≠ path || isDir) ≠ some false) ∧
      lastLine glob files path false ≠ some false

theorem lineReaches_mono {l : List Segment × List Char} (h : lineReaches glob l path false = true)
    (isDir : Bool) : lineReaches glob l path isDir = true := by
  unfold lineReaches at h ⊢
  rw [List.any_eq_true] at h ⊢
  obtain ⟨q, hq, hcovers⟩ := h
  refine ⟨q, hq, ?_⟩
  unfold lineCovers at hcovers ⊢
  split at hcovers
  · cases hcovers
  · simp only [Pattern.covers, Bool.and_eq_true, Bool.or_eq_true, Bool.or_false] at hcovers ⊢
    exact ⟨hcovers.1, hcovers.2.1.imp_right Or.inl, hcovers.2.2⟩

variable {isDir : Bool}

/-- Git excludes the path when one of the lines it asks about says so. -/
theorem gitIgnores_eq_true : gitIgnores glob files path isDir = true ↔
    ∃ q ∈ prefixes path, status glob files q (q ≠ path || isDir) = some false := by
  simp [gitIgnores]

/-- When the last line that matches the path or a directory it lies in excludes, git does. -/
theorem gitIgnores_of_lastLine (hwalked : Walked files)
    (h : lastLine glob files path isDir = some false) :
    gitIgnores glob files path isDir = true := by
  obtain ⟨q, hq, hstatus⟩ := exists_lastMatch_of_any
    (f := fun q l => lineCovers glob l q (q ≠ path || isDir)) h
  exact gitIgnores_eq_true.2 ⟨q, hq, by rwa [status_eq hwalked]⟩

theorem gitIgnores_of_none (hwalked : Walked files)
    (h : lastLine glob files path isDir = none) : gitIgnores glob files path isDir = false := by
  rw [Bool.eq_false_iff]
  intro hgit
  obtain ⟨q, hq, hstatus⟩ := gitIgnores_eq_true.1 hgit
  rw [status_eq hwalked, lastMatch_none_of_any
    (f := fun q l => lineCovers glob l q (q ≠ path || isDir)) hq h] at hstatus
  cases hstatus

theorem lastLine_none (h : lastLine glob files path isDir = none) :
    lastLine glob files path false = none :=
  lastMatch_eq_none.2 fun l hl => by
    have hnone := lastMatch_eq_none.1 h l hl
    by_contra hne
    rw [lineReaches_mono (by simpa using hne) isDir] at hnone
    cases hnone

/-- What a path resolves to lies in the tree, and is asked about as git asks about it. -/
theorem engine_eq (hglob : PlainGlob glob) (hwalked : Walked files) (hplain : PlainFiles files)
    (hdot : ['.'] ∉ path)
    (hslash : isDir = true → ∀ l ∈ linesOf files, ¬ SlashOnly glob l path) :
    (matchFile glob (collectPatterns files) path false ||
        (isDir && matchFile glob (collectPatterns files) path true)) =
      (decide (lastLine glob files path false = some false) ||
        decide (lastLine glob files path isDir = some false)) := by
  have hbare : matchFile glob (collectPatterns files) path false =
      decide (lastLine glob files path false = some false) :=
    matchFile_collect hglob hwalked hplain hdot nofun
  rw [hbare]
  cases isDir with
  | false => simp
  | true =>
    rw [matchFile_collect hglob hwalked hplain hdot fun _ => hslash rfl]
    simp

/-- The last lines say what git says when the path may be asked about at once. -/
theorem lastLine_agrees (hwalked : Walked files) (honce : AskedAtOnce glob files path isDir) :
    (decide (lastLine glob files path false = some false) ||
      decide (lastLine glob files path isDir = some false)) =
        gitIgnores glob files path isDir := by
  rcases hlast : lastLine glob files path isDir with _ | negated
  · rw [lastLine_none hlast, gitIgnores_of_none hwalked hlast]
    rfl
  · cases negated with
    | false => rw [gitIgnores_of_lastLine hwalked hlast]; simp
    | true =>
      obtain ⟨hstatus, hbareLast⟩ := honce hlast
      have hgit : gitIgnores glob files path isDir = false := by
        rw [Bool.eq_false_iff]
        intro hgit
        obtain ⟨q, hq, hexcluded⟩ := gitIgnores_eq_true.1 hgit
        exact hstatus q hq hexcluded
      simp [hgit, hbareLast]

/-- A file of which the last line says what git says may be asked about at once. -/
theorem askedAtOnce_of_agrees (hagree : decide (lastLine glob files path false = some false) =
    gitIgnores glob files path false) : AskedAtOnce glob files path false := by
  intro hlast
  rw [hlast] at hagree
  refine ⟨fun q hq hexcluded => ?_, by simp [hlast]⟩
  rw [gitIgnores_eq_true.2 ⟨q, hq, hexcluded⟩] at hagree
  cases hagree

theorem plainGlob_eq : PlainGlob fun name x => name = x := by
  intro name _ x
  simp [eq_comm]

/-- The link `k` leads to the file `b`, and the line is `b` : the engine ignores the link, and git
does not. -/
example : engineIgnores (fun name x => name = x) [⟨[], [['b']]⟩] []
      (fun p => if p = [['k']] then [['b']] else p) [['k']] false = true ∧
    gitIgnores (fun name x => name = x) [⟨[], [['b']]⟩] [['k']] false = false := by
  decide +kernel

end ChunkHound.Ignore
