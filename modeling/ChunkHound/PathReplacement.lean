import Mathlib.Data.List.MinMax
import Mathlib.Data.List.Nodup
import Mathlib.Data.List.Perm.Basic
import Mathlib.Tactic.Common

/-!
# Replacing paths by URLs

`replace_paths_with_urls` substitutes one path after the other with `re.sub`, whose replacement is
a template : a backslash in a URL is an escape or an error. What is wanted is one substitution of
all paths at once (`simultaneous`), at the places that a scan for the longest path finds.

The two agree in every order of the mapping when each URL that is used is its own template and the
search for a path, in the text where others have been replaced, finds the places of the path in the
text and no other (`simultaneous_of_clean`). One URL that contains another path is enough to break
this.
-/

namespace ChunkHound.PathReplacement

abbrev Text := List Char

/-! ## Templates -/

/-- What `re.sub` raises for a template of a pattern without groups. -/
inductive TemplateError
  | badEscape
  | missingBracket
  | groupName
  | groupReference
  | octalRange
  deriving DecidableEq

def isOctal (c : Char) : Bool := '0' ≤ c ∧ c ≤ '7'

def digitsValue (base : ℕ) (digits : Text) : ℕ :=
  digits.foldl (fun n c => n * base + (c.toNat - '0'.toNat)) 0

/-- The escapes with one letter. -/
def letterEscape : Char → Option Char
  | 'a' => some (Char.ofNat 7)
  | 'b' => some (Char.ofNat 8)
  | 'f' => some (Char.ofNat 12)
  | 'n' => some '\n'
  | 'r' => some '\r'
  | 't' => some '\t'
  | 'v' => some (Char.ofNat 11)
  | '\\' => some '\\'
  | _ => none

/-- A group in angle brackets, of which only the whole match is there. -/
def namedGroup (matched rest : Text) : Except TemplateError (Text × Text) :=
  match rest with
  | '<' :: rest =>
    let name := rest.takeWhile (· ≠ '>')
    match rest.drop name.length with
    | [] => .error .missingBracket
    | _ :: after =>
      if name = [] ∨ ¬ name.all Char.isDigit then .error .groupName
      else if digitsValue 10 name = 0 then .ok (matched, after)
      else .error .groupReference
  | _ => .error .missingBracket

/-- What follows a backslash : the text it stands for, and the rest. -/
def escape (matched : Text) : Text → Except TemplateError (Text × Text)
  | [] => .error .badEscape
  | 'g' :: rest => namedGroup matched rest
  | '0' :: rest =>
    let digits := (rest.take 2).takeWhile isOctal
    .ok ([Char.ofNat (digitsValue 8 digits % 256)], rest.drop digits.length)
  | c :: rest =>
    if c.isDigit then
      match rest with
      | d :: e :: rest =>
        if isOctal c && isOctal d && isOctal e then
          if 255 < digitsValue 8 [c, d, e] then .error .octalRange
          else .ok ([Char.ofNat (digitsValue 8 [c, d, e])], rest)
        else .error .groupReference
      | _ => .error .groupReference
    else
      match letterEscape c with
      | some character => .ok ([character], rest)
      | none => if c.isAlpha then .error .badEscape else .ok (['\\', c], rest)

/-- The template that is left, in at most as many steps as it has characters. -/
def expandFrom (matched : Text) : ℕ → Text → Except TemplateError Text
  | _, [] => .ok []
  | 0, _ :: _ => .error .badEscape
  | steps + 1, '\\' :: rest => do
    let (piece, rest) ← escape matched rest
    return piece ++ (← expandFrom matched steps rest)
  | steps + 1, c :: rest => do return c :: (← expandFrom matched steps rest)

/-- What a template gives for a match. -/
def expandTemplate (matched template : Text) : Except TemplateError Text :=
  expandFrom matched template.length template

/-! ## Searching -/

/-- A path and its URL. -/
structure Entry where
  name : Text
  url : Text
  name_ne : name ≠ []
  deriving DecidableEq

/-- A dictionary of paths. -/
structure Mapping where
  entries : List Entry
  nodup : (entries.map Entry.name).Nodup

/-- A text with the places of paths in it. -/
inductive Token
  | copy (c : Char)
  | hit (e : Entry)
  deriving DecidableEq

section Scan

variable (isWord : Char → Bool)

/-- `(?<!\w)name(?![\w/])` matches, after the character `prev`. -/
def matchesAt (name : Text) (prev : Option Char) (rest : Text) : Bool :=
  !prev.any isWord && name.isPrefixOf rest &&
    !(rest.drop name.length).head?.any fun c => isWord c || c = '/'

/-- The scan from left to right. `skip` characters of a match are left to go over. -/
def scan (choose : Option Char → Text → Option Entry) : Option Char → ℕ → Text → List Token
  | _, _, [] => []
  | prev, 0, c :: cs =>
    match choose prev (c :: cs) with
    | some e => .hit e :: scan choose (some c) (e.name.length - 1) cs
    | none => .copy c :: scan choose (some c) 0 cs
  | _, skip + 1, c :: cs => scan choose (some c) skip cs

/-- The text, with values in the places of paths. -/
def render (value : Entry → Text) (tokens : List Token) : Text :=
  tokens.flatMap fun
    | .copy c => [c]
    | .hit e => value e

/-- One path is searched. -/
def single (e : Entry) (prev : Option Char) (rest : Text) : Option Entry :=
  if matchesAt isWord e.name prev rest then some e else none

/-- `re.sub`. The template is read before the search begins. -/
def reSub (e : Entry) (text : Text) : Except TemplateError Text := do
  let replacement ← expandTemplate e.name e.url
  return render (fun _ => replacement) (scan (single isWord e) none 0 text)

/-- `replace_paths_with_urls`, for the entries in the order of the mapping. -/
def replacePathsWithUrls (entries : List Entry) (text : Text) : Except TemplateError Text :=
  entries.foldlM (fun text e => reSub isWord e text) text

/-! ## All at once -/

/-- The longest path that matches. -/
def longest (entries : List Entry) (prev : Option Char) (rest : Text) : Option Entry :=
  (entries.filter fun e => matchesAt isWord e.name prev rest).argmax fun e => e.name.length

/-- The maximal standalone occurrences of the paths. -/
def occurrences (mapping : Mapping) (text : Text) : List Token :=
  scan (longest isWord mapping.entries) none 0 text

def simultaneous (mapping : Mapping) (text : Text) : Text :=
  render Entry.url (occurrences isWord mapping text)

/-- Every order of the mapping gives the simultaneous substitution. -/
def Simultaneous (mapping : Mapping) (text : Text) : Prop :=
  ∀ entries, entries.Perm mapping.entries →
    replacePathsWithUrls isWord entries text = .ok (simultaneous isWord mapping text)

end Scan

/-! ## What a scan finds -/

section Found

variable {isWord : Char → Bool} {choose : Option Char → Text → Option Entry}

@[simp] theorem render_copy (value : Entry → Text) (c : Char) (tokens : List Token) :
    render value (.copy c :: tokens) = c :: render value tokens := rfl

@[simp] theorem render_hit (value : Entry → Text) (e : Entry) (tokens : List Token) :
    render value (.hit e :: tokens) = value e ++ render value tokens := rfl

/-- With the paths in their places the text is the same again. -/
theorem render_scan_name (h : ∀ {prev rest e}, choose prev rest = some e → e.name <+: rest) :
    ∀ (text : Text) (prev : Option Char) (skip : ℕ),
      render Entry.name (scan choose prev skip text) = text.drop skip
  | [], _, _ => by
    unfold scan
    rw [List.drop_nil]
    rfl
  | c :: cs, prev, 0 => by
    unfold scan
    split
    · rename_i e hchoose
      obtain ⟨after, hafter⟩ := h hchoose
      have hlength : e.name.length = e.name.length - 1 + 1 :=
        (Nat.sub_add_cancel (List.length_pos_iff.2 e.name_ne)).symm
      have hdrop : cs.drop (e.name.length - 1) = after := by
        have := congrArg (List.drop e.name.length) hafter
        rw [List.drop_left, hlength, List.drop_succ_cons] at this
        exact this.symm
      rw [render_hit, render_scan_name h cs, hdrop, hafter]
      rfl
    · rw [render_copy, render_scan_name h cs]
      rfl
  | c :: cs, _, skip + 1 => by
    unfold scan
    rw [render_scan_name h cs, List.drop_succ_cons]

theorem exists_choose_of_hit {e : Entry} : ∀ {text : Text} {prev : Option Char} {skip : ℕ},
    Token.hit e ∈ scan choose prev skip text → ∃ prev rest, choose prev rest = some e
  | [], _, _, h => by cases h
  | c :: cs, prev, 0, h => by
    unfold scan at h
    split at h
    · rename_i e' hchoose
      rcases List.mem_cons.1 h with heq | h
      · obtain rfl := Token.hit.inj heq
        exact ⟨prev, c :: cs, hchoose⟩
      · exact exists_choose_of_hit h
    · rcases List.mem_cons.1 h with heq | h
      · cases heq
      · exact exists_choose_of_hit h
  | c :: cs, _, skip + 1, h => by
    unfold scan at h
    exact exists_choose_of_hit h

theorem name_prefix_of_longest {entries : List Entry} {prev : Option Char} {rest : Text}
    {e : Entry} (h : longest isWord entries prev rest = some e) :
    e ∈ entries ∧ e.name <+: rest := by
  obtain ⟨hmem, hmatch⟩ := List.mem_filter.1 (List.argmax_mem h)
  unfold matchesAt at hmatch
  rw [Bool.and_eq_true, Bool.and_eq_true] at hmatch
  exact ⟨hmem, List.isPrefixOf_iff_prefix.1 hmatch.1.2⟩

/-- The hits are entries of the mapping. -/
theorem mem_of_hit {mapping : Mapping} {text : Text} {e : Entry}
    (h : Token.hit e ∈ occurrences isWord mapping text) : e ∈ mapping.entries := by
  obtain ⟨prev, rest, hchoose⟩ := exists_choose_of_hit h
  exact (name_prefix_of_longest hchoose).1

theorem render_occurrences_name (mapping : Mapping) (text : Text) :
    render Entry.name (occurrences isWord mapping text) = text :=
  render_scan_name (fun h => (name_prefix_of_longest h).2) text none 0

theorem render_congr {value value' : Entry → Text} {tokens : List Token}
    (h : ∀ e, Token.hit e ∈ tokens → value e = value' e) :
    render value tokens = render value' tokens := by
  unfold render
  refine List.flatMap_congr fun token htoken => ?_
  cases token with
  | copy c => rfl
  | hit e => exact h e htoken

end Found

/-! ## One path after the other -/

section Sequence

variable (isWord : Char → Bool) (mapping : Mapping) (text : Text)

/-- The text in which some of the paths have been replaced. -/
def partly (done : Entry → Bool) : Text :=
  render (fun e => if done e then e.url else e.name) (occurrences isWord mapping text)

/-- In this text the search for a path finds its places, and no other. -/
def Finds (done : Entry → Bool) (e : Entry) : Prop :=
  scan (single isWord e) none 0 (partly isWord mapping text done) =
    (occurrences isWord mapping text).flatMap fun
      | .copy c => [.copy c]
      | .hit e' =>
        if e' = e then [.hit e]
        else (if done e' then e'.url else e'.name).map Token.copy

/-- Whatever other paths have been replaced, the search for a path finds its places. -/
def Clean : Prop :=
  ∀ (done : Entry → Bool), ∀ e ∈ mapping.entries, done e = false →
    Finds isWord mapping text done e

/-- Every URL is a template, and the URLs of the paths in the text stand for themselves. -/
def Literal : Prop :=
  ∀ e ∈ mapping.entries, (∃ url, expandTemplate e.name e.url = .ok url) ∧
    (.hit e ∈ occurrences isWord mapping text → expandTemplate e.name e.url = .ok e.url)

variable {isWord mapping text}

/-- One path is replaced at its places. -/
theorem reSub_partly {done : Entry → Bool} {e : Entry} {url : Text}
    (hfinds : Finds isWord mapping text done e) (hurl : expandTemplate e.name e.url = .ok url) :
    reSub isWord e (partly isWord mapping text done) =
      .ok (render (fun e' => if e' = e then url else if done e' then e'.url else e'.name)
        (occurrences isWord mapping text)) := by
  unfold reSub
  rw [hurl, hfinds]
  refine congrArg Except.ok ?_
  unfold render
  rw [List.flatMap_assoc]
  refine List.flatMap_congr fun token _ => ?_
  cases token with
  | copy c => rfl
  | hit e' =>
    dsimp only
    split
    · exact List.append_nil _
    · rw [List.flatMap_map]
      exact List.flatMap_singleton' _

/-- A run replaces the paths that it comes to. -/
theorem replacePathsWithUrls_partly (hliteral : Literal isWord mapping text)
    (hclean : Clean isWord mapping text) : ∀ (entries : List Entry) (done : Entry → Bool),
      entries.Nodup → (∀ e ∈ entries, e ∈ mapping.entries ∧ done e = false) →
        replacePathsWithUrls isWord entries (partly isWord mapping text done) =
          .ok (partly isWord mapping text fun e => done e || decide (e ∈ entries))
  | [], done, _, _ => by
    unfold replacePathsWithUrls
    simp only [List.not_mem_nil, decide_false, Bool.or_false]
    rfl
  | e :: entries, done, hnodup, hentries => by
    obtain ⟨he, hnew⟩ := List.nodup_cons.1 hnodup
    obtain ⟨hmem, hdone⟩ := hentries e List.mem_cons_self
    obtain ⟨⟨url, hurl⟩, hself⟩ := hliteral e hmem
    have hstep : reSub isWord e (partly isWord mapping text done) =
        .ok (partly isWord mapping text fun e' => done e' || decide (e' = e)) := by
      rw [reSub_partly (hclean done e hmem hdone) hurl]
      refine congrArg Except.ok (render_congr fun e' hhit => ?_)
      by_cases heq : e' = e
      · subst heq
        rw [hurl] at hself
        simp [Except.ok.inj (hself hhit)]
      · simp [heq]
    have hrest : ∀ e' ∈ entries, e' ∈ mapping.entries ∧
        (done e' || decide (e' = e)) = false := fun e' he' => by
      obtain ⟨hmem', hdone'⟩ := hentries e' (List.mem_cons_of_mem e he')
      have hne : e' ≠ e := fun heq => he (heq ▸ he')
      exact ⟨hmem', by simp [hdone', hne]⟩
    have hrun := replacePathsWithUrls_partly hliteral hclean entries _ hnew hrest
    unfold replacePathsWithUrls at hrun ⊢
    rw [List.foldlM_cons, hstep]
    refine hrun.trans (congrArg Except.ok (render_congr fun e' _ => ?_))
    simp only [List.mem_cons, Bool.decide_or, Bool.or_assoc]

theorem simultaneous_of_clean (hliteral : Literal isWord mapping text)
    (hclean : Clean isWord mapping text) : Simultaneous isWord mapping text := by
  intro entries hperm
  have hnodup : entries.Nodup := hperm.nodup_iff.2 (List.Nodup.of_map _ mapping.nodup)
  have hrun := replacePathsWithUrls_partly hliteral hclean entries (fun _ => false) hnodup
    fun e he => ⟨hperm.mem_iff.1 he, rfl⟩
  have hnone : partly isWord mapping text (fun _ => false) = text :=
    render_occurrences_name mapping text
  rw [hnone] at hrun
  rw [hrun]
  refine congrArg Except.ok (render_congr fun e hhit => ?_)
  simp [hperm.mem_iff.2 (mem_of_hit hhit)]

end Sequence

/-! ## One path alone -/

section Alone

variable {isWord : Char → Bool} {mapping : Mapping} {text : Text} {e : Entry}

theorem longest_singleton : longest isWord [e] = single isWord e := by
  funext prev rest
  unfold longest single
  split
  · rename_i hmatch
    have hfilter : [e].filter (fun e => matchesAt isWord e.name prev rest) = [e] :=
      List.filter_cons_of_pos hmatch
    rw [hfilter]
    rfl
  · rename_i hmatch
    have hfilter : [e].filter (fun e => matchesAt isWord e.name prev rest) = [] :=
      List.filter_cons_of_neg hmatch
    rw [hfilter]
    rfl

/-- No other path can be in the way. -/
theorem clean_singleton (h : mapping.entries = [e]) : Clean isWord mapping text := by
  intro done e' he' hdone
  have heq : ∀ {e''}, e'' ∈ mapping.entries → e'' = e := fun hmem => by
    rw [h] at hmem
    exact List.mem_singleton.1 hmem
  obtain rfl := heq he'
  have hpartly : partly isWord mapping text done = text :=
    (render_congr fun e'' hhit => by rw [heq (mem_of_hit hhit), hdone]; rfl).trans
      (render_occurrences_name mapping text)
  have hself : occurrences isWord mapping text = scan (single isWord e') none 0 text := by
    unfold occurrences
    rw [h, longest_singleton]
  unfold Finds
  rw [hpartly, ← hself]
  refine ((List.flatMap_congr fun token htoken => ?_).trans (List.flatMap_singleton' _)).symm
  cases token with
  | copy c => rfl
  | hit e'' =>
    obtain rfl := heq (mem_of_hit htoken)
    exact if_pos rfl

theorem length_render_const (value : Text) (tokens : List Token) :
    (render (fun _ => value) tokens).length =
      (render (fun _ => []) tokens).length +
        value.length * tokens.countP fun | .copy _ => false | .hit _ => true := by
  induction tokens with
  | nil => rfl
  | cons token tokens ih =>
    cases token with
    | copy c =>
      rw [render_copy, render_copy, List.length_cons, List.length_cons, ih,
        List.countP_cons_of_neg (by simp)]
      omega
    | hit e =>
      rw [render_hit, render_hit, List.length_append, ih, List.countP_cons_of_pos rfl, Nat.mul_add]
      simp only [List.nil_append]
      omega

/-- What stands in the places of a path can be read off the text. -/
theorem eq_of_render_eq {value value' : Text} : ∀ {tokens : List Token}, .hit e ∈ tokens →
    render (fun _ => value) tokens = render (fun _ => value') tokens → value = value'
  | [], h, _ => by cases h
  | .copy c :: tokens, h, heq => by
    have hmem : .hit e ∈ tokens := by simpa using h
    exact eq_of_render_eq hmem (List.cons.inj heq).2
  | .hit e' :: tokens, _, heq => by
    have hlength := congrArg List.length heq
    rw [length_render_const value, length_render_const value',
      List.countP_cons_of_pos rfl] at hlength
    have hsame : value.length = value'.length :=
      Nat.eq_of_mul_eq_mul_right (Nat.succ_pos _) (Nat.add_left_cancel hlength)
    exact (List.append_inj heq hsame).1

theorem simultaneous_singleton_iff (h : mapping.entries = [e]) :
    Simultaneous isWord mapping text ↔ Literal isWord mapping text := by
  refine ⟨fun hall => ?_, fun hliteral => simultaneous_of_clean hliteral (clean_singleton h)⟩
  have hrun := hall [e] (h ▸ List.Perm.refl _)
  have htokens : occurrences isWord mapping text = scan (single isWord e) none 0 text := by
    unfold occurrences
    rw [h, longest_singleton]
  unfold replacePathsWithUrls reSub at hrun
  rw [List.foldlM_cons, ← htokens] at hrun
  intro e' he'
  obtain rfl : e' = e := by
    rw [h] at he'
    exact List.mem_singleton.1 he'
  cases hurl : expandTemplate e'.name e'.url with
  | error failure =>
    rw [hurl] at hrun
    cases hrun
  | ok url =>
    rw [hurl] at hrun
    refine ⟨⟨url, rfl⟩, fun hhit => congrArg Except.ok ?_⟩
    have hrender : render (fun _ => url) (occurrences isWord mapping text) =
        render (fun _ => e'.url) (occurrences isWord mapping text) := by
      refine (Except.ok.inj hrun).trans (render_congr fun e'' hhit' => ?_)
      have hmem := mem_of_hit hhit'
      rw [h] at hmem
      rw [List.mem_singleton.1 hmem]
    exact eq_of_render_eq hhit hrender

end Alone

/-! ## The whole mapping -/

/-- A URL that is no template makes every run fail. -/
theorem templates_of_simultaneous {isWord : Char → Bool} {mapping : Mapping} {text : Text}
    (hall : Simultaneous isWord mapping text) {e : Entry} (he : e ∈ mapping.entries) :
    ∃ url, expandTemplate e.name e.url = .ok url := by
  obtain ⟨before, after, hsplit⟩ := List.append_of_mem he
  have hperm : (e :: (before ++ after)).Perm mapping.entries :=
    hsplit ▸ List.perm_middle.symm
  have hrun := hall _ hperm
  unfold replacePathsWithUrls reSub at hrun
  rw [List.foldlM_cons] at hrun
  cases hurl : expandTemplate e.name e.url with
  | error failure =>
    rw [hurl] at hrun
    cases hrun
  | ok url => exact ⟨url, rfl⟩

/-- In every order the paths are replaced at once and literally, if the URLs are literal and the
search for each path finds its places whatever others were replaced. All URLs must be templates, and
for one path alone literal URLs are all that is needed. -/
theorem replacement_simultaneous (isWord : Char → Bool) (mapping : Mapping) (text : Text) :
    (Literal isWord mapping text ∧ Clean isWord mapping text →
        Simultaneous isWord mapping text) ∧
      (Simultaneous isWord mapping text →
        ∀ e ∈ mapping.entries, ∃ url, expandTemplate e.name e.url = .ok url) ∧
      ∀ e, mapping.entries = [e] →
        (Simultaneous isWord mapping text ↔ Literal isWord mapping text) :=
  ⟨fun h => simultaneous_of_clean h.1 h.2, fun h _ he => templates_of_simultaneous h he,
    fun _ h => simultaneous_singleton_iff h⟩

def aFile : Entry := ⟨"a.md".toList, "http://x".toList, by decide⟩

def bFile : Entry := ⟨"b.md".toList, "http://y".toList, by decide⟩

/-- Two files, with URLs in which neither stands. -/
def twoFiles : Mapping := ⟨[aFile, bFile], by decide⟩

/-- The characters of words. -/
def isWordChar (c : Char) : Bool := c.isAlphanum || c = '_'

theorem replacement_simultaneous_twoFiles :
    Simultaneous isWordChar twoFiles "a.md, b.md".toList := by
  have hmem : ∀ e ∈ twoFiles.entries, e = aFile ∨ e = bFile := fun e he => by
    rcases List.mem_cons.1 he with rfl | he
    · exact Or.inl rfl
    · exact Or.inr (List.mem_singleton.1 he)
  refine (replacement_simultaneous _ _ _).1 ⟨fun e he => ?_, fun done e he hdone => ?_⟩
  · have hurl : expandTemplate e.name e.url = .ok e.url := by
      rcases hmem e he with rfl | rfl <;> decide
    exact ⟨⟨e.url, hurl⟩, fun _ => hurl⟩
  · have hoccurrences : occurrences isWordChar twoFiles "a.md, b.md".toList =
        [.hit aFile, .copy ',', .copy ' ', .hit bFile] := by decide +kernel
    unfold Finds partly
    rw [hoccurrences]
    -- the other file is replaced or not
    rcases hmem e he with rfl | rfl
    · cases hb : done bFile <;>
        simp only [render, List.flatMap_cons, List.flatMap_nil, hdone, hb] <;> decide +kernel
    · cases ha : done aFile <;>
        simp only [render, List.flatMap_cons, List.flatMap_nil, hdone, ha] <;> decide +kernel

/-- The URL of one path ends with another. -/
def nestedMapping : Mapping where
  entries := [⟨"a.md".toList, "http://x/b.md".toList, by decide⟩, bFile]
  nodup := by decide

/-- The URL that is inserted is replaced again. -/
theorem inserted_replaced_again : ¬ ∀ (isWord : Char → Bool) (mapping : Mapping) (text : Text),
    Simultaneous isWord mapping text := fun h =>
  absurd (h isWordChar nestedMapping "a.md".toList _ (List.Perm.refl _))
    (by decide +kernel)

end ChunkHound.PathReplacement
