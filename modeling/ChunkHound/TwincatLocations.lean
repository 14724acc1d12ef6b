import ChunkHound.TextSearch
import ChunkHound.XmlTree

/-!
# Locations of TwinCAT sections

`TcPOUExtractor`. The texts of a POU's sections come from the XML tree and their locations from
searches in the XML text : for the opening tag of the element, for the tags of the section behind
it, and for the next CDATA section.

`locations_right_iff` : the locations are those of the texts exactly when each search ends at the
CDATA section that the section's text starts in, or finds none (`SectionLeads`).
-/

namespace ChunkHound.Twincat

open TextSearch Xml

/-! ## Patterns -/

/-- `<name(?:\s[^>]*)?>|<name>` -/
def tagPattern (name : String) : Pattern Char := fun s =>
  let behind := s.drop (name.toList.length + 1)
  if '<' :: name.toList <+: s ∧ behind.head?.any (fun c => c = '>' || isSpace c) then
    (behind.findIdx? (· = '>')).map fun k => name.toList.length + 1 + k + 1
  else none

/-- `<tag\s+Name="name"` -/
def openingPattern (tag : String) (name : Text) : Pattern Char := fun s =>
  let behind := s.drop (tag.toList.length + 1)
  let named := "Name=\"".toList ++ name ++ ['"']
  if '<' :: tag.toList <+: s ∧ behind.takeWhile isSpace ≠ [] ∧
      named <+: behind.dropWhile isSpace then
    some (tag.toList.length + 1 + (behind.takeWhile isSpace).length + named.length)
  else none

/-- `<name(?:\s|>)` -/
def accessorPattern (name : String) : Pattern Char := fun s =>
  if '<' :: name.toList <+: s ∧
      (s.drop (name.toList.length + 1)).head?.any (fun c => c = '>' || isSpace c) then
    some (name.toList.length + 2)
  else none

/-! ## The extractor -/

/-- A place in the XML text, from one. -/
structure SourceLocation where
  line : ℕ
  column : ℕ
  pos : ℕ
  deriving DecidableEq

/-- An action and where its sections are. -/
structure ActionContent where
  name : Text
  id : Text
  declaration : Option Text
  implementation : Text
  declarationLocation : Option SourceLocation
  implementationLocation : Option SourceLocation
  deriving DecidableEq

/-- A method, or an accessor of a property. -/
structure MethodContent where
  name : Text
  id : Text
  declaration : Text
  implementation : Text
  declarationLocation : Option SourceLocation
  implementationLocation : Option SourceLocation
  deriving DecidableEq

/-- A property with its accessors. -/
structure PropertyContent where
  name : Text
  id : Text
  declaration : Text
  get : Option MethodContent
  set : Option MethodContent
  declarationLocation : Option SourceLocation
  deriving DecidableEq

/-- A program organization unit. -/
structure POUContent where
  name : Text
  id : Text
  pouType : String
  declaration : Text
  implementation : Text
  actions : List ActionContent
  methods : List MethodContent
  properties : List PropertyContent
  declarationLocation : Option SourceLocation
  implementationLocation : Option SourceLocation
  deriving DecidableEq

/-- `text.rfind("\n")` -/
def rfindNewline (text : Text) : Option ℕ :=
  (text.reverse.findIdx? (· = '\n')).map fun k => text.length - 1 - k

/-- The line and column of an offset. -/
def sourceLocation (xmlText : Text) (contentStart : ℕ) : SourceLocation where
  line := (xmlText.take contentStart).count '\n' + 1
  column :=
    match rfindNewline (xmlText.take contentStart) with
    | none => contentStart + 1
    | some lastNewline => contentStart - lastNewline
  pos := contentStart

/-- `_find_cdata_content_start`. -/
def findCdataContentStart (xmlText : Text) (searchStart : ℕ) (elementPath : List String) :
    Option SourceLocation := do
  let pos ← searchEach xmlText searchStart (elementPath.map tagPattern)
  let cdata ← search (literal cdataMarker) (xmlText.drop pos)
  return sourceLocation xmlText (pos + cdata.1 + cdataMarker.length)

/-- The start of a match from the search start on, which stays if there is none. -/
def matchStart (xmlText : Text) (p : Pattern Char) (searchStart : ℕ) : ℕ :=
  if xmlText = [] then searchStart
  else
    match search p (xmlText.drop searchStart) with
    | none => searchStart
    | some found => searchStart + found.1

/-- The search start moved behind a match, if there is one. -/
def matchEnd (xmlText : Text) (p : Pattern Char) (searchStart : ℕ) : ℕ :=
  if xmlText = [] then searchStart
  else
    match search p (xmlText.drop searchStart) with
    | none => searchStart
    | some found => searchStart + found.2

/-- The location of a section, if it has a text. -/
def locate (xmlText content : Text) (searchStart : ℕ) (elementPath : List String) :
    Option SourceLocation :=
  if xmlText ≠ [] ∧ content ≠ [] then findCdataContentStart xmlText searchStart elementPath
  else none

/-- The text of a section that may be missing. -/
def sectionText (elem : Option Element) : Text := (elem.bind (·.text)).getD []

/-- `element.get("Name")`. A missing name is like an empty one. -/
def elementName (elem : Element) : Text := (elem.get "Name").getD []

/-- The element with the text of an implementation. -/
def stElement (elem : Element) : Option Element :=
  (elem.find "Implementation").bind (·.find "ST")

/-- `_extract_action`. -/
def extractAction (xmlText : Text) (elem : Element) (searchStart : ℕ) : Option ActionContent :=
  let name := elementName elem
  if name = [] then none
  else
    let start := matchStart xmlText (openingPattern "Action" name) searchStart
    let declaration := sectionText (elem.find "Declaration")
    if (elem.find "Implementation").isNone then none
    else
      let implementation := sectionText (stElement elem)
      some {
        name
        id := (elem.get "Id").getD []
        declaration := if declaration = [] then none else some declaration
        implementation
        declarationLocation := locate xmlText declaration start ["Declaration"]
        implementationLocation := locate xmlText implementation start ["Implementation", "ST"] }

/-- `_extract_method`. -/
def extractMethod (xmlText : Text) (elem : Element) (searchStart : ℕ) : Option MethodContent :=
  let name := elementName elem
  if name = [] then none
  else
    let start := matchStart xmlText (openingPattern "Method" name) searchStart
    let declaration := sectionText (elem.find "Declaration")
    let implementation := sectionText (stElement elem)
    some {
      name
      id := (elem.get "Id").getD []
      declaration
      implementation
      declarationLocation := locate xmlText declaration start ["Declaration"]
      implementationLocation := locate xmlText implementation start ["Implementation", "ST"] }

/-- `_extract_property_accessor`. -/
def extractPropertyAccessor (xmlText : Text) (elem : Element) (accessorName : String)
    (searchStart : ℕ) : MethodContent :=
  let start := matchStart xmlText (accessorPattern accessorName) searchStart
  let declaration := sectionText (elem.find "Declaration")
  let implementation := sectionText (stElement elem)
  { name := accessorName.toList
    id := (elem.get "Id").getD []
    declaration
    implementation
    declarationLocation := locate xmlText declaration start ["Declaration"]
    implementationLocation := locate xmlText implementation start ["Implementation", "ST"] }

/-- `_extract_property`. -/
def extractProperty (xmlText : Text) (elem : Element) (searchStart : ℕ) :
    Option PropertyContent :=
  let name := elementName elem
  if name = [] then none
  else
    let start := matchStart xmlText (openingPattern "Property" name) searchStart
    let declaration := sectionText (elem.find "Declaration")
    some {
      name
      id := (elem.get "Id").getD []
      declaration
      get := (elem.find "Get").map fun accessor =>
        extractPropertyAccessor xmlText accessor "Get" start
      set := (elem.find "Set").map fun accessor =>
        extractPropertyAccessor xmlText accessor "Set" start
      declarationLocation := locate xmlText declaration start ["Declaration"] }

/-- The contents of the elements of a kind, each searched for behind the one before. -/
def extractEach {β : Type*} (xmlText : Text) (tag : String) (nameOf : β → Text)
    (extract : Element → ℕ → Option β) : ℕ → List Element → List β
  | _, [] => []
  | searchStart, elem :: elems =>
    match extract elem searchStart with
    | none => extractEach xmlText tag nameOf extract searchStart elems
    | some content =>
      let next :=
        if nameOf content ≠ [] then
          matchEnd xmlText (openingPattern tag (nameOf content)) searchStart
        else searchStart
      content :: extractEach xmlText tag nameOf extract next elems

/-- The declaration without its block comments. An open one runs to the end. -/
def removeBlockComments : ℕ → Text → Text
  | 0, cleaned => cleaned
  | n + 1, cleaned =>
    match search (literal "(*".toList) cleaned with
    | none => cleaned
    | some start =>
      match search (literal "*)".toList) (cleaned.drop start.1) with
      | none => cleaned.take start.1
      | some stop =>
        removeBlockComments n (cleaned.take start.1 ++ cleaned.drop (start.1 + stop.2))

/-- Drops what follows `//`. -/
def removeLineComment (line : Text) : Text :=
  match search (literal "//".toList) line with
  | none => line
  | some comment => line.take comment.1

/-- The upper case of a character as far as the keywords can tell. -/
def upper (c : Char) : Char := if c.toNat = 0x131 then 'I' else c.toUpper

/-- `_detect_pou_type`. -/
def detectPouType (declaration : Text) : String :=
  let cleaned := removeBlockComments declaration.length declaration
  let lines := (cleaned.splitOn '\n').map fun line => strip (removeLineComment line)
  let cleanedText := (([' '].intercalate (lines.filter (· ≠ []))).map upper).dropWhile isSpace
  if "PROGRAM".toList <+: cleanedText then "PROGRAM"
  else if "FUNCTION_BLOCK".toList <+: cleanedText then "FUNCTION_BLOCK"
  else if "FUNCTION".toList <+: cleanedText then "FUNCTION"
  else "UNKNOWN"

/-- The content of a POU with its sections. -/
def pouContent (xmlText : Text) (pou : Element) : POUContent :=
  let start := matchStart xmlText (openingPattern "POU" (elementName pou)) 0
  let declaration := sectionText (pou.find "Declaration")
  let implementation := sectionText (stElement pou)
  { name := elementName pou
    id := (pou.get "Id").getD []
    pouType := detectPouType declaration
    declaration
    implementation
    actions := extractEach xmlText "Action" (·.name) (extractAction xmlText) start
      (pou.findall "Action")
    methods := extractEach xmlText "Method" (·.name) (extractMethod xmlText) start
      (pou.findall "Method")
    properties := extractEach xmlText "Property" (·.name) (extractProperty xmlText) start
      (pou.findall "Property")
    declarationLocation := locate xmlText declaration start ["Declaration"]
    implementationLocation := locate xmlText implementation start ["Implementation", "ST"] }

/-- `_extract_from_element`. -/
def extractFromElement (root : Element) (source : String) (xmlText : Text) :
    Except String POUContent :=
  match root.find "POU" with
  | none => .error s!"No POU element found in {source}"
  | some pou =>
    if elementName pou = [] then .error s!"POU missing Name attribute in {source}"
    else if (pou.find "Declaration").isNone then
      .error s!"No Declaration element found in {source}"
    else if (pou.find "Implementation").isNone then
      .error s!"No Implementation element found in {source}"
    else .ok (pouContent xmlText pou)

/-- `extract_string`, on a text that can be parsed. -/
def extractString (doc : Document) (source : String) : Except String POUContent :=
  extractFromElement doc.fromstring source doc.text

/-! ## Places -/

/-- The location of a place : its line, its column in the line, and its offset. -/
def locationAt (text : Text) (place : ℕ) : SourceLocation where
  line := (text.take place).count '\n' + 1
  column := ((text.take place).rtakeWhile (· ≠ '\n')).length + 1
  pos := place

theorem length_rtakeWhile_newline (text : Text) :
    (text.rtakeWhile (· ≠ '\n')).length =
      match rfindNewline text with
      | none => text.length
      | some last => text.length - last - 1 := by
  have hlength : (text.rtakeWhile (· ≠ '\n')).length =
      min (text.reverse.findIdx (· = '\n')) text.length := by
    rw [List.rtakeWhile, List.length_reverse, List.takeWhile_eq_take_findIdx_not,
      List.length_take, List.length_reverse]
    simp
  rw [hlength, rfindNewline]
  cases hfind : text.reverse.findIdx? (· = '\n') with
  | none =>
    have hnone := List.findIdx_eq_length_of_false (List.findIdx?_eq_none_iff.1 hfind)
    rw [hnone, List.length_reverse, min_self]
    rfl
  | some k =>
    obtain ⟨hlt, hidx⟩ := List.findIdx?_eq_some_iff_findIdx_eq.1 hfind
    rw [List.length_reverse] at hlt
    rw [hidx]
    show min k text.length = text.length - (text.length - 1 - k) - 1
    omega

variable {text : Text}

variable {place : ℕ}

theorem sourceLocation_eq (h : place ≤ text.length) :
    sourceLocation text place = locationAt text place := by
  have hcolumn := length_rtakeWhile_newline (text.take place)
  rw [List.length_take_of_le h] at hcolumn
  rw [sourceLocation, locationAt, hcolumn]
  cases hfind : rfindNewline (text.take place) with
  | none => rfl
  | some last =>
    have hlast : last < place := by
      obtain ⟨k, hk, rfl⟩ := Option.map_eq_some_iff.1 hfind
      have hlt := (List.findIdx?_eq_some_iff_findIdx_eq.1 hk).1
      rw [List.length_reverse] at hlt
      rw [List.length_take_of_le h] at hlt ⊢
      omega
    simp only [SourceLocation.mk.injEq, true_and, and_true]
    omega

/-- A later search for a character does not find an earlier one. -/
theorem findIdx_drop_le {p : Char → Bool} {a b k l : ℕ} (hab : a ≤ b)
    (hk : (text.drop a).findIdx? p = some k) (hl : (text.drop b).findIdx? p = some l) :
    a + k ≤ b + l := by
  obtain ⟨hklt, hkhit, hkmin⟩ := List.findIdx?_eq_some_iff_getElem.1 hk
  obtain ⟨hllt, hlhit, -⟩ := List.findIdx?_eq_some_iff_getElem.1 hl
  by_contra hlt
  rw [List.getElem_drop] at hlhit
  have hmin := hkmin (b + l - a) (by omega)
  rw [List.getElem_drop] at hmin
  have hplace : a + (b + l - a) = b + l := by omega
  simp only [hplace] at hmin
  exact hmin hlhit

/-- A tag ends with the next `>`. -/
theorem tagPattern_endsInOrder (name : String) : EndsInOrder (tagPattern name) := by
  intro text i j n m hij hn hm
  rw [tagPattern] at hn hm
  split at hn
  · split at hm
    · rw [List.drop_drop] at hn hm
      obtain ⟨k, hk, rfl⟩ := Option.map_eq_some_iff.1 hn
      obtain ⟨l, hl, rfl⟩ := Option.map_eq_some_iff.1 hm
      have hle := findIdx_drop_le (Nat.add_le_add_right hij _) hk hl
      omega
    · exact absurd hm nofun
  · exact absurd hn nofun

variable {path : List String}

theorem endsInOrder_of_mem : ∀ p ∈ path.map tagPattern, EndsInOrder p := by
  intro p hp
  obtain ⟨name, -, rfl⟩ := List.mem_map.1 hp
  exact tagPattern_endsInOrder name

/-! ## One section -/

/-- A CDATA section starts at the place. -/
def CdataAt (text : Text) (place : ℕ) : Prop := cdataMarker <+: text.drop place

/-- The first CDATA section that has the tags of a path in front of it, one behind the other from
the start on. -/
def FirstCdata (text : Text) (start : ℕ) (path : List String) (place : ℕ) : Prop :=
  IsLeast {place | CdataAt text place ∧ Between text start (path.map tagPattern) place} place

/-- The text of a section starts in the first CDATA section behind its tags, if there is one. -/
def SectionLeads (text : Text) (start : ℕ) (path : List String) (section? : Option Element) :
    Prop :=
  sectionText section? ≠ [] → ∀ e ∈ section?, ∀ place, FirstCdata text start path place →
    place + cdataMarker.length = e.textStart

/-- The location, if there is one, is that of the section's text. -/
def LocationRight (text : Text) (section? : Option Element) (location : Option SourceLocation) :
    Prop :=
  ∀ l ∈ location, section?.map (fun e => locationAt text e.textStart) = some l

instance {text : Text} {section? : Option Element} {location : Option SourceLocation} :
    Decidable (LocationRight text section? location) := by
  unfold LocationRight
  infer_instance

theorem isSome_literal_iff :
    (literal cdataMarker (text.drop place)).isSome ↔ CdataAt text place := by
  rw [literal, CdataAt]
  split <;> simp [*]

theorem CdataAt.le (h : CdataAt text place) :
    place + cdataMarker.length ≤ text.length := by
  have hlength := h.length_le
  have hpos : 0 < cdataMarker.length := by decide
  rw [List.length_drop] at hlength
  omega

/-- The search finds the first CDATA section behind the tags of the path. -/
theorem findCdataContentStart_spec (text : Text) (start : ℕ) (path : List String) :
    match findCdataContentStart text start path with
    | none => ∀ place, ¬FirstCdata text start path place
    | some location => ∃ place, FirstCdata text start path place ∧
        location = locationAt text (place + cdataMarker.length) := by
  have hleast : ∀ {k i j}, searchEach text start (path.map tagPattern) = some k →
      search (literal cdataMarker) (text.drop k) = some (i, j) →
        FirstCdata text start path (k + i) := by
    intro k i j heach hsearch
    have hleast := isLeast_of_searchEach endsInOrder_of_mem heach hsearch
    simp only [isSome_literal_iff] at hleast
    exact hleast
  have hnone : (∀ k, searchEach text start (path.map tagPattern) = some k →
      search (literal cdataMarker) (text.drop k) = none) →
        ∀ place, ¬FirstCdata text start path place := fun h place hfirst =>
    not_between_of_searchEach endsInOrder_of_mem h (isSome_literal_iff.2 hfirst.1.1) hfirst.1.2
  rw [findCdataContentStart]
  cases heach : searchEach text start (path.map tagPattern) with
  | none => exact hnone fun k hk => absurd (heach.symm.trans hk) nofun
  | some k =>
    cases hsearch : search (literal cdataMarker) (text.drop k) with
    | none =>
      simp only [Option.bind_eq_bind, Option.bind_some, hsearch, Option.bind_none]
      exact hnone fun k' hk' => Option.some.inj (heach.symm.trans hk') ▸ hsearch
    | some found =>
      simp only [Option.bind_eq_bind, Option.bind_some, hsearch]
      have hfirst := hleast heach hsearch
      exact ⟨k + found.1, hfirst, sourceLocation_eq hfirst.1.1.le⟩

variable {start : ℕ}

/-- A section's location is right exactly when the search leads to its text. -/
theorem locationRight_iff {section? : Option Element} :
    LocationRight text section? (locate text (sectionText section?) start path) ↔
      SectionLeads text start path section? := by
  rw [locate, SectionLeads]
  split
  · rename_i hguard
    have hspec := findCdataContentStart_spec text start path
    cases section? with
    | none => exact absurd rfl hguard.2
    | some e =>
      cases hfind : findCdataContentStart text start path with
      | none =>
        rw [hfind] at hspec
        exact iff_of_true nofun fun _ _ _ place hplace => absurd hplace (hspec place)
      | some location =>
        rw [hfind] at hspec
        obtain ⟨place, hfirst, rfl⟩ := hspec
        constructor
        · intro h _ e' he' place' hplace'
          obtain rfl := Option.some.inj he'
          obtain rfl := hplace'.unique hfirst
          have hlocation := Option.some.inj (h _ rfl)
          exact (congrArg SourceLocation.pos hlocation).symm
        · intro h l hl
          obtain rfl := Option.some.inj hl
          rw [Option.map_some, ← h hguard.2 e rfl place hfirst]
  · rename_i hguard
    refine iff_of_true nofun fun hcontent e _ place hfirst => ?_
    have htext : text ≠ [] := by
      rintro rfl
      have hle := hfirst.1.1.le
      have hpos : 0 < cdataMarker.length := by decide
      rw [List.length_nil] at hle
      omega
    exact absurd ⟨htext, hcontent⟩ hguard

/-! ## The elements -/

/-- Where an element's sections are searched from, and where the next element is : from the first
match of its pattern and from behind it, or from where the search was if there is no match. -/
inductive Opens (text : Text) (p : Pattern Char) (start : ℕ) : ℕ → ℕ → Prop
  | found {i n : ℕ} : First p text start i n → Opens text p start i (i + n)
  | missing : Absent p text start → Opens text p start start start

theorem opens_iff {p : Pattern Char} (hp : p [] = none) {start opening next : ℕ} :
    Opens text p start opening next ↔
      opening = matchStart text p start ∧ next = matchEnd text p start := by
  rw [matchStart, matchEnd]
  split
  · rename_i hnil
    subst hnil
    constructor
    · rintro (hfirst | _)
      · exact absurd hfirst.hit (by rw [List.drop_nil, hp]; nofun)
      · exact ⟨rfl, rfl⟩
    · rintro ⟨rfl, rfl⟩
      exact .missing fun k _ => by rw [List.drop_nil, hp]
  · cases hsearch : search p (text.drop start) with
    | none =>
      have habsent := absent_of_search hsearch
      constructor
      · rintro (hfirst | _)
        · exact absurd hfirst.hit (by rw [habsent _ hfirst.le]; nofun)
        · exact ⟨rfl, rfl⟩
      · rintro ⟨rfl, rfl⟩
        exact .missing habsent
    | some found =>
      obtain ⟨n, hn, hfirst⟩ := first_of_search hsearch
      constructor
      · rintro (hfirst' | habsent)
        · obtain ⟨rfl, rfl⟩ := hfirst'.unique hfirst
          exact ⟨rfl, by rw [Nat.add_assoc, ← hn]⟩
        · exact absurd hfirst.hit (by rw [habsent _ hfirst.le]; nofun)
      · rintro ⟨rfl, rfl⟩
        show Opens text p start (start + found.1) (start + found.2)
        rw [hn, ← Nat.add_assoc]
        exact .found hfirst

theorem openingPattern_nil (tag : String) (name : Text) : openingPattern tag name [] = none := by
  rw [openingPattern, if_neg fun h => absurd h.1 (by simp)]

theorem accessorPattern_nil (name : String) : accessorPattern name [] = none := by
  rw [accessorPattern, if_neg fun h => absurd h.1 (by simp)]

/-- The sections of an element start where the searches for them lead. -/
def ElementLeads (text : Text) (start : ℕ) (e : Element) : Prop :=
  SectionLeads text start ["Declaration"] (e.find "Declaration") ∧
    SectionLeads text start ["Implementation", "ST"] (stElement e)

/-- Also those of the accessors of a property, which are searched for from the property on. -/
def PropertyLeads (text : Text) (start : ℕ) (e : Element) : Prop :=
  SectionLeads text start ["Declaration"] (e.find "Declaration") ∧
    ∀ name ∈ ["Get", "Set"], ∀ accessor ∈ e.find name, ∀ opening next,
      Opens text (accessorPattern name) start opening next → ElementLeads text opening accessor

/-- Each element that is reported is searched for behind the one before. -/
def EachLeads (text : Text) (tag : String) (reported : Element → Bool)
    (leads : ℕ → Element → Prop) : ℕ → List Element → Prop
  | _, [] => True
  | start, e :: es =>
    if reported e then
      ∀ opening next, Opens text (openingPattern tag (elementName e)) start opening next →
        leads opening e ∧ EachLeads text tag reported leads next es
    else EachLeads text tag reported leads start es

def isNamed (e : Element) : Bool := elementName e ≠ []

/-- An action without an implementation is not reported. -/
def isAction (e : Element) : Bool := isNamed e && (e.find "Implementation").isSome

/-- The searches lead to the sections of a POU. -/
def PouLeads (text : Text) (pou : Element) : Prop :=
  ∀ start next, Opens text (openingPattern "POU" (elementName pou)) 0 start next →
    ElementLeads text start pou ∧
      EachLeads text "Action" isAction (ElementLeads text) start (pou.findall "Action") ∧
      EachLeads text "Method" isNamed (ElementLeads text) start (pou.findall "Method") ∧
      EachLeads text "Property" isNamed (PropertyLeads text) start (pou.findall "Property")

/-! ## What is reported -/

/-- The locations of an action are right. -/
def ActionContent.Right (text : Text) (e : Element) (action : ActionContent) : Prop :=
  LocationRight text (e.find "Declaration") action.declarationLocation ∧
    LocationRight text (stElement e) action.implementationLocation

def MethodContent.Right (text : Text) (e : Element) (method : MethodContent) : Prop :=
  LocationRight text (e.find "Declaration") method.declarationLocation ∧
    LocationRight text (stElement e) method.implementationLocation

def PropertyContent.Right (text : Text) (e : Element) (prop : PropertyContent) : Prop :=
  LocationRight text (e.find "Declaration") prop.declarationLocation ∧
    (∀ accessor ∈ e.find "Get", ∀ content ∈ prop.get, content.Right text accessor) ∧
    ∀ accessor ∈ e.find "Set", ∀ content ∈ prop.set, content.Right text accessor

instance (text : Text) (e : Element) (action : ActionContent) :
    Decidable (action.Right text e) :=
  inferInstanceAs (Decidable (_ ∧ _))

instance (text : Text) (e : Element) (method : MethodContent) :
    Decidable (method.Right text e) :=
  inferInstanceAs (Decidable (_ ∧ _))

instance (text : Text) (e : Element) (prop : PropertyContent) : Decidable (prop.Right text e) :=
  inferInstanceAs (Decidable (_ ∧ _))

/-- Every location of a POU is that of the text that it is reported for. -/
def POUContent.Right (text : Text) (pou : Element) (content : POUContent) : Prop :=
  LocationRight text (pou.find "Declaration") content.declarationLocation ∧
    LocationRight text (stElement pou) content.implementationLocation ∧
    ((pou.findall "Action").filter isAction).Forall₂ (ActionContent.Right text)
      content.actions ∧
    ((pou.findall "Method").filter isNamed).Forall₂ (MethodContent.Right text)
      content.methods ∧
    ((pou.findall "Property").filter isNamed).Forall₂ (PropertyContent.Right text)
      content.properties

instance (text : Text) (pou : Element) (content : POUContent) :
    Decidable (content.Right text pou) :=
  inferInstanceAs (Decidable (_ ∧ _))

section Each

variable {β : Type*} {text : Text} {tag : String} {nameOf : β → Text}
  {extract : Element → ℕ → Option β} {reported : Element → Bool} {right : Element → β → Prop}
  {leads : ℕ → Element → Prop}

/-- The contents are right exactly when the searches for them lead to their elements. -/
theorem forall₂_extractEach_iff
    (hskip : ∀ e start, reported e = false → extract e start = none)
    (hextract : ∀ e start, reported e = true → ∃ content, extract e start = some content ∧
      nameOf content = elementName e ∧ elementName e ≠ [] ∧
      (right e content ↔
        leads (matchStart text (openingPattern tag (elementName e)) start) e)) :
    ∀ (start : ℕ) (es : List Element),
      (es.filter reported).Forall₂ right (extractEach text tag nameOf extract start es) ↔
        EachLeads text tag reported leads start es
  | _, [] => iff_of_true .nil trivial
  | start, e :: es => by
    rw [extractEach, EachLeads]
    cases hreported : reported e with
    | false =>
      rw [List.filter_cons_of_neg (by simp [hreported]), hskip e start hreported]
      exact forall₂_extractEach_iff hskip hextract start es
    | true =>
      obtain ⟨content, hcontent, hname, hne, hright⟩ := hextract e start hreported
      rw [List.filter_cons_of_pos hreported, hcontent]
      simp only [hname, ne_eq, hne, not_false_eq_true, if_true, List.forall₂_cons, hright,
        forall₂_extractEach_iff hskip hextract, opens_iff (openingPattern_nil _ _)]
      constructor
      · rintro h _ _ ⟨rfl, rfl⟩
        exact h
      · exact fun h => h _ _ ⟨rfl, rfl⟩

end Each

theorem extractAction_spec (text : Text) (e : Element) (start : ℕ) (h : isAction e = true) :
    ∃ action, extractAction text e start = some action ∧ action.name = elementName e ∧
      elementName e ≠ [] ∧ (action.Right text e ↔
        ElementLeads text (matchStart text (openingPattern "Action" (elementName e)) start) e) := by
  obtain ⟨hname, himplementation⟩ := (Bool.and_eq_true ..).mp h
  have hne : elementName e ≠ [] := of_decide_eq_true hname
  have hsome : ¬(e.find "Implementation").isNone = true := by
    rw [← Option.not_isSome, himplementation]
    nofun
  refine ⟨_, (if_neg hne).trans (if_neg hsome), rfl, hne, ?_⟩
  exact and_congr locationRight_iff locationRight_iff

theorem extractAction_skip (text : Text) (e : Element) (start : ℕ) (h : isAction e = false) :
    extractAction text e start = none := by
  rw [extractAction]
  by_cases hname : elementName e = []
  · exact if_pos hname
  · have hnone : (e.find "Implementation").isNone = true := by
      simpa [isAction, isNamed, hname] using h
    exact (if_neg hname).trans (if_pos hnone)

theorem extractMethod_spec (text : Text) (e : Element) (start : ℕ) (h : isNamed e = true) :
    ∃ method, extractMethod text e start = some method ∧ method.name = elementName e ∧
      elementName e ≠ [] ∧ (method.Right text e ↔
        ElementLeads text (matchStart text (openingPattern "Method" (elementName e)) start) e) := by
  have hne : elementName e ≠ [] := of_decide_eq_true h
  exact ⟨_, if_neg hne, rfl, hne, and_congr locationRight_iff locationRight_iff⟩

theorem extractMethod_skip (text : Text) (e : Element) (start : ℕ) (h : isNamed e = false) :
    extractMethod text e start = none :=
  if_pos (not_not.1 (of_decide_eq_false h))

theorem extractPropertyAccessor_right_iff {e : Element} {name : String}
    : (extractPropertyAccessor text e name start).Right text e ↔
      ElementLeads text (matchStart text (accessorPattern name) start) e :=
  and_congr locationRight_iff locationRight_iff

/-- The accessors of a kind. -/
theorem accessors_right_iff {e : Element} {name : String} :
    (∀ accessor ∈ e.find name, ∀ content ∈ (e.find name).map fun a =>
        extractPropertyAccessor text a name start, content.Right text accessor) ↔
      ∀ accessor ∈ e.find name, ∀ opening next,
        Opens text (accessorPattern name) start opening next →
          ElementLeads text opening accessor := by
  refine forall₂_congr fun accessor haccessor => ?_
  rw [Option.mem_def.1 haccessor]
  simp only [Option.map_some, Option.mem_some_iff, forall_eq', extractPropertyAccessor_right_iff,
    opens_iff (accessorPattern_nil name)]
  constructor
  · rintro h _ _ ⟨rfl, -⟩
    exact h
  · exact fun h => h _ _ ⟨rfl, rfl⟩

theorem extractProperty_spec (text : Text) (e : Element) (start : ℕ) (h : isNamed e = true) :
    ∃ prop, extractProperty text e start = some prop ∧ prop.name = elementName e ∧
      elementName e ≠ [] ∧ (prop.Right text e ↔
        PropertyLeads text (matchStart text (openingPattern "Property" (elementName e)) start)
          e) := by
  have hne : elementName e ≠ [] := of_decide_eq_true h
  refine ⟨_, if_neg hne, rfl, hne, ?_⟩
  refine and_congr locationRight_iff ((and_congr accessors_right_iff accessors_right_iff).trans ?_)
  simp only [List.forall_mem_cons, List.not_mem_nil, false_imp_iff, implies_true, and_true]

theorem extractProperty_skip (text : Text) (e : Element) (start : ℕ) (h : isNamed e = false) :
    extractProperty text e start = none :=
  if_pos (not_not.1 (of_decide_eq_false h))

theorem pouContent_right_iff (text : Text) (pou : Element) :
    (pouContent text pou).Right text pou ↔ PouLeads text pou := by
  have hsections : (pouContent text pou).Right text pou ↔
      ElementLeads text (matchStart text (openingPattern "POU" (elementName pou)) 0) pou ∧
        EachLeads text "Action" isAction (ElementLeads text)
          (matchStart text (openingPattern "POU" (elementName pou)) 0) (pou.findall "Action") ∧
        EachLeads text "Method" isNamed (ElementLeads text)
          (matchStart text (openingPattern "POU" (elementName pou)) 0) (pou.findall "Method") ∧
        EachLeads text "Property" isNamed (PropertyLeads text)
          (matchStart text (openingPattern "POU" (elementName pou)) 0)
            (pou.findall "Property") := by
    rw [ElementLeads, and_assoc]
    refine and_congr locationRight_iff (and_congr locationRight_iff (and_congr ?_
      (and_congr ?_ ?_)))
    · exact forall₂_extractEach_iff (extractAction_skip text) (extractAction_spec text) _ _
    · exact forall₂_extractEach_iff (extractMethod_skip text) (extractMethod_spec text) _ _
    · exact forall₂_extractEach_iff (extractProperty_skip text) (extractProperty_spec text) _ _
  rw [hsections, PouLeads]
  simp only [opens_iff (openingPattern_nil _ _)]
  constructor
  · rintro h _ _ ⟨rfl, -⟩
    exact h
  · exact fun h => h _ _ ⟨rfl, rfl⟩

/-- What is extracted is the content of the first POU. -/
theorem extractFromElement_eq_ok {root : Element} {source : String}
    {content : POUContent} (h : extractFromElement root source text = .ok content) :
    ∃ pou, root.find "POU" = some pou ∧ content = pouContent text pou := by
  rw [extractFromElement] at h
  cases hpou : root.find "POU" with
  | none =>
    rw [hpou] at h
    exact absurd h nofun
  | some pou =>
    rw [hpou] at h
    refine ⟨pou, rfl, ?_⟩
    simp only at h
    split at h
    · exact absurd h nofun
    · split at h
      · exact absurd h nofun
      · split at h
        · exact absurd h nofun
        · exact (Except.ok.inj h).symm

/-- The locations of a POU are those of its texts, which stand where the tree says, exactly when
every search for a section that has a text ends at the CDATA section in which this text starts, or
finds no CDATA section. -/
theorem locations_right_iff (doc : Document) (source : String) {content : POUContent}
    (h : extractString doc source = .ok content) :
    ∃ pou, doc.fromstring.find "POU" = some pou ∧
      (∀ e, Element.Below pou e → e.TextStands doc.text) ∧
      (content.Right doc.text pou ↔ PouLeads doc.text pou) := by
  obtain ⟨pou, hpou, rfl⟩ := extractFromElement_eq_ok h
  refine ⟨pou, hpou, fun e he => ?_, pouContent_right_iff doc.text pou⟩
  exact doc.text_stands (.child (List.mem_of_find?_eq_some hpou) he)

/-- An element without an attribute but these. -/
def element (name : String) (attributes : List (String × String)) (children : List Node) : Node :=
  .element ⟨name.toList, attributes.map fun a =>
    ⟨[' '], a.1.toList, [], [], '"', [.plain a.2.toList]⟩, [], []⟩ children []

def declarationNode (source : String) : Node :=
  element "Declaration" [] [.cdata source.toList]

def implementationNode (source : String) : Node :=
  element "Implementation" [] [element "ST" [] [.cdata source.toList]]

/-- A function block with an action, a method and a property. -/
def functionBlock : Document where
  prolog := []
  root := element "TcPlcObject" [] [element "POU" [("Name", "FB"), ("Id", "1")] [
    declarationNode "FUNCTION_BLOCK FB",
    implementationNode "n := 1;",
    .chars ['\n'],
    element "Action" [("Name", "A")] [implementationNode "n := 2;"],
    element "Method" [("Name", "M")] [declarationNode "METHOD M", implementationNode "n := 3;"],
    element "Property" [("Name", "P")] [
      declarationNode "PROPERTY P",
      element "Get" [] [declarationNode "VAR", implementationNode "n := 4;"]]]]
  epilog := []
  isElement := rfl
  wellFormed := by decide +kernel

def functionBlockPou : Element :=
  (functionBlock.fromstring.find "POU").get (by decide +kernel)

/-- In a function block as it is exported, the searches lead to the sections. -/
theorem functionBlock_leads : PouLeads functionBlock.text functionBlockPou := by
  have hextract : extractString functionBlock "<string>" =
      .ok (pouContent functionBlock.text functionBlockPou) := by
    decide +kernel
  obtain ⟨pou, hpou, -, hright⟩ := locations_right_iff functionBlock "<string>" hextract
  have heq : functionBlockPou = pou := by
    rw [functionBlockPou, Option.get_of_mem _ hpou]
  rw [heq] at hright ⊢
  refine hright.1 ?_
  rw [← heq]
  decide +kernel

/-- A program whose declaration is plain text. -/
def plainProgram : Document where
  prolog := []
  root := element "TcPlcObject" [] [element "POU" [("Name", "P"), ("Id", "1")] [
    element "Declaration" [] [.chars "PROGRAM P".toList],
    implementationNode "n := 1;"]]
  epilog := []
  isElement := rfl
  wellFormed := by decide +kernel

def plainProgramPou : Element := (plainProgram.fromstring.find "POU").get (by decide +kernel)

/-- The declaration gets the location of the implementation. -/
theorem plainProgram_not_right :
    ∃ pou content, plainProgram.fromstring.find "POU" = some pou ∧
      extractString plainProgram "<string>" = .ok content ∧
      content.declarationLocation = content.implementationLocation ∧
      ¬content.Right plainProgram.text pou := by
  refine ⟨plainProgramPou, pouContent plainProgram.text plainProgramPou, ?_, ?_, ?_, ?_⟩
  · exact (Option.some_get _).symm
  · decide +kernel
  · decide +kernel
  · decide +kernel

end ChunkHound.Twincat
