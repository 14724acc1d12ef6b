import ChunkHound.ChunkDiff
import Mathlib.Data.List.Infix

/-!
# XML documents

An XML text as it is written, `Document`, and `ET.fromstring` on it. The elements of the tree also
hold the place in the text where their own text starts, which the code does not get.
`Document.text_stands` says that it is that place.

A document allows more than XML does : its prolog is any text, and names are what the syntax can
tell apart. A reference stands for any text, as an entity of a document type may, but not for
elements.
-/

namespace ChunkHound.Xml

/-- A text, by its characters. -/
abbrev Text := List Char

/-! ## What is written -/

/-- A run of an attribute's value. -/
inductive Piece
  | plain (source : Text)
  | reference (name value : Text)

/-- As it stands in the file. -/
def Piece.render : Piece → Text
  | .plain source => source
  | .reference name _ => '&' :: name ++ [';']

/-- An attribute, with its white space. -/
structure Attribute where
  space : Text
  name : Text
  before : Text
  behind : Text
  quote : Char
  pieces : List Piece

/-- As it stands in the file. -/
def Attribute.render (a : Attribute) : Text :=
  a.space ++ a.name ++ a.before ++ ['='] ++ a.behind ++ [a.quote] ++
    a.pieces.flatMap Piece.render ++ [a.quote]

/-- A tag up to its `>` or `/>`, and the attributes that a document type adds to it. -/
structure Tag where
  name : Text
  attributes : List Attribute
  space : Text
  defaults : List (Text × Text)

/-- The tag without what closes it. -/
def Tag.render (t : Tag) : Text :=
  '<' :: t.name ++ t.attributes.flatMap Attribute.render ++ t.space

/-- A node of the document. -/
inductive Node
  | element (tag : Tag) (children : List Node) (space : Text)
  | empty (tag : Tag)
  | chars (source : Text)
  | reference (name value : Text)
  | cdata (source : Text)
  | comment (source : Text)
  | instruction (source : Text)

/-- What opens a CDATA section. -/
def cdataMarker : Text := "<![CDATA[".toList

mutual

/-- As it stands in the file. -/
def Node.render : Node → Text
  | .element tag children space =>
    tag.render ++ ['>'] ++ renderAll children ++ "</".toList ++ tag.name ++ space ++ ['>']
  | .empty tag => tag.render ++ "/>".toList
  | .chars source => source
  | .reference name _ => '&' :: name ++ [';']
  | .cdata source => cdataMarker ++ source ++ "]]>".toList
  | .comment source => "<!--".toList ++ source ++ "-->".toList
  | .instruction source => "<?".toList ++ source ++ "?>".toList

/-- Nodes one after the other. -/
def renderAll : List Node → Text
  | [] => []
  | node :: nodes => node.render ++ renderAll nodes

end

/-! ## What is well formed -/

/-- The white space of XML. -/
def isXmlSpace (c : Char) : Bool := c ∈ [' ', '\t', '\r', '\n']

/-- The text may be a name. -/
def isName (name : Text) : Bool :=
  name ≠ [] && name.all fun c => !isXmlSpace c && c ∉ ['<', '>', '/', '=', '&', ';', '"', '\'']

/-- No markup and no quote in it. -/
def Piece.wellFormed (quote : Char) : Piece → Bool
  | .plain source => source.all fun c => c ∉ ['<', '&', quote]
  | .reference name _ => isName name

/-- The grammar of an attribute. -/
def Attribute.wellFormed (a : Attribute) : Bool :=
  a.space ≠ [] && a.space.all isXmlSpace && isName a.name && a.before.all isXmlSpace &&
    a.behind.all isXmlSpace && a.quote ∈ ['"', '\''] && a.pieces.all (Piece.wellFormed a.quote)

/-- The grammar of a tag, whose attributes are distinct. -/
def Tag.wellFormed (t : Tag) : Bool :=
  isName t.name && t.attributes.all Attribute.wellFormed && t.space.all isXmlSpace &&
    decide (t.attributes.map (·.name)).Nodup

/-- A text that does not hold another one. -/
def lacks (word text : Text) : Bool := !decide (word <:+: text)

mutual

/-- The grammar of a node. -/
def Node.wellFormed : Node → Bool
  | .element tag children space =>
    tag.wellFormed && allWellFormed children && space.all isXmlSpace
  | .empty tag => tag.wellFormed
  | .chars source => source.all (fun c => c ∉ ['<', '&']) && lacks "]]>".toList source
  | .reference name _ => isName name
  | .cdata source => lacks "]]>".toList source
  | .comment source => lacks "--".toList (source ++ ['-'])
  | .instruction source => lacks "?>".toList source

/-- All nodes are well formed. -/
def allWellFormed : List Node → Bool
  | [] => true
  | node :: nodes => node.wellFormed && allWellFormed nodes

end

/-! ## What is read -/

/-- An element of the tree. A tag in a namespace is none that a plain name finds. The place is that
of the first character of the text. -/
structure Element where
  tag : Option Text
  attrib : List (Text × Text)
  text : Option Text
  textStart : ℕ
  children : List Element

namespace Element

/-- `element.get` -/
def get (e : Element) (name : String) : Option Text := e.attrib.lookup name.toList

/-- `element.find` -/
def find (e : Element) (name : String) : Option Element :=
  e.children.find? (·.tag = some name.toList)

/-- `element.findall` -/
def findall (e : Element) (name : String) : List Element :=
  e.children.filter (·.tag = some name.toList)

end Element

/-- The value of a run of an attribute, where whitespace is read as blanks. -/
def Piece.value : Piece → Text
  | .plain source => (unixLines source).map fun c => if isXmlSpace c then ' ' else c
  | .reference _ value => value

/-- The value that is read. -/
def Attribute.value (a : Attribute) : Text := a.pieces.flatMap Piece.value

/-- The attributes, with those the document type adds. -/
def Tag.allAttributes (t : Tag) : List (Text × Text) :=
  t.attributes.map (fun a => (a.name, a.value)) ++ t.defaults

/-- The default namespace inside a tag. -/
def Tag.namespaceIn (outer : Text) (t : Tag) : Text :=
  (t.allAttributes.lookup "xmlns".toList).getD outer

/-- The name, if it is in no namespace. -/
def Tag.resolved (outer : Text) (t : Tag) : Option Text :=
  if ':' ∈ t.name ∨ t.namespaceIn outer ≠ [] then none else some t.name

/-- The attributes that plain names find. -/
def Tag.attrib (t : Tag) : List (Text × Text) :=
  t.allAttributes.filter fun a => ':' ∉ a.1 ∧ a.1 ≠ "xmlns".toList

/-- A run of an element's text : its place, how it is written, and its value. Characters stand for
themselves, with `\n` for every line end. -/
structure Run where
  start : ℕ
  source : Text
  value : Text
  reads : value = unixLines source ∨ ∃ name, source = '&' :: name ++ [';']

/-- The runs in front of the first child element. -/
def runs (offset : ℕ) : List Node → List Run
  | [] => []
  | .chars source :: nodes =>
    ⟨offset, source, unixLines source, .inl rfl⟩ :: runs (offset + source.length) nodes
  | .reference name value :: nodes =>
    ⟨offset, '&' :: name ++ [';'], value, .inr ⟨name, rfl⟩⟩ ::
      runs (offset + (Node.reference name value).render.length) nodes
  | .cdata source :: nodes =>
    ⟨offset + cdataMarker.length, source, unixLines source, .inl rfl⟩ ::
      runs (offset + (Node.cdata source).render.length) nodes
  | .comment source :: nodes => runs (offset + (Node.comment source).render.length) nodes
  | .instruction source :: nodes => runs (offset + (Node.instruction source).render.length) nodes
  | .element .. :: _ => []
  | .empty _ :: _ => []

/-- `element.text` -/
def textOf (runs : List Run) : Option Text :=
  if runs.flatMap Run.value = [] then none else some (runs.flatMap Run.value)

/-- The place of the first character of the text. -/
def textStartOf (offset : ℕ) (runs : List Run) : ℕ :=
  ((runs.find? (·.value ≠ [])).map Run.start).getD offset

mutual

/-- The element that is written at this place. -/
def Node.toElement (outer : Text) (offset : ℕ) : Node → Option Element
  | .element tag children _ =>
    let inside := offset + tag.render.length + 1
    some ⟨tag.resolved outer, tag.attrib, textOf (runs inside children),
      textStartOf inside (runs inside children), toElements (tag.namespaceIn outer) inside children⟩
  | .empty tag => some ⟨tag.resolved outer, tag.attrib, none, offset, []⟩
  | .chars _ => none
  | .reference .. => none
  | .cdata _ => none
  | .comment _ => none
  | .instruction _ => none

/-- The elements of some nodes. -/
def toElements (outer : Text) (offset : ℕ) : List Node → List Element
  | [] => []
  | node :: nodes =>
    (node.toElement outer offset).toList ++ toElements outer (offset + node.render.length) nodes

end

/-- An XML text. -/
structure Document where
  prolog : Text
  root : Node
  epilog : Text
  isElement : (root.toElement [] prolog.length).isSome
  wellFormed : root.wellFormed = true

namespace Document

variable (doc : Document)

/-- The whole file. -/
def text : Text := doc.prolog ++ doc.root.render ++ doc.epilog

/-- `ET.fromstring` -/
def fromstring : Element := (doc.root.toElement [] doc.prolog.length).get doc.isElement

end Document

/-! ## Where texts stand -/

/-- The run stands in the text. -/
def Run.StandsIn (text : Text) (run : Run) : Prop := run.source <+: text.drop run.start

/-- An element of the tree below this one, or it. -/
inductive Element.Below : Element → Element → Prop
  | self (e : Element) : Below e e
  | child {e c d : Element} : c ∈ e.children → Below c d → Below e d

/-- The text starts with the value of a run that stands at the place. -/
def Element.TextStands (text : Text) (e : Element) : Prop :=
  ∀ t, e.text = some t → ∃ run : Run, run.start = e.textStart ∧ run.StandsIn text ∧
    run.value ≠ [] ∧ run.value <+: t

theorem Run.standsIn {run : Run} {pre : Text} (post : Text) (h : pre.length = run.start) :
    run.StandsIn (pre ++ run.source ++ post) := by
  rw [StandsIn, List.append_assoc, ← h, List.drop_left]
  exact List.prefix_append _ _

/-- The runs stand in every text that the nodes are written in. -/
theorem runs_standIn (post : Text) : ∀ (pre : Text) (nodes : List Node),
    ∀ run ∈ runs pre.length nodes, run.StandsIn (pre ++ renderAll nodes ++ post)
  | _, [] => fun _ h => absurd h List.not_mem_nil
  | pre, node :: nodes => by
    have hrest := runs_standIn post (pre ++ node.render) nodes
    have htext : pre ++ node.render ++ renderAll nodes ++ post =
        pre ++ renderAll (node :: nodes) ++ post := by
      simp only [renderAll, List.append_assoc]
    rw [htext, List.length_append] at hrest
    intro run hrun
    cases node with
    | element tag children space => exact absurd hrun List.not_mem_nil
    | empty tag => exact absurd hrun List.not_mem_nil
    | comment source => exact hrest run hrun
    | instruction source => exact hrest run hrun
    | chars source =>
      rcases List.mem_cons.1 hrun with rfl | hrun
      · rw [← htext, List.append_assoc]
        exact Run.standsIn _ rfl
      · exact hrest run hrun
    | reference name value =>
      rcases List.mem_cons.1 hrun with rfl | hrun
      · rw [← htext, List.append_assoc]
        exact Run.standsIn _ rfl
      · exact hrest run hrun
    | cdata source =>
      rcases List.mem_cons.1 hrun with rfl | hrun
      · have hcdata : pre ++ renderAll (.cdata source :: nodes) ++ post =
            pre ++ cdataMarker ++ source ++ ("]]>".toList ++ renderAll nodes ++ post) := by
          simp only [renderAll, Node.render, List.append_assoc]
        rw [hcdata]
        exact Run.standsIn _ (List.length_append ..)
      · exact hrest run hrun

/-- A text of runs starts with the first that is not empty. -/
theorem textOf_eq_some {offset : ℕ} {text t : Text} : ∀ {runs : List Run},
    (∀ run ∈ runs, run.StandsIn text) → textOf runs = some t →
      ∃ run : Run, run.start = textStartOf offset runs ∧ run.StandsIn text ∧ run.value ≠ [] ∧
        run.value <+: t
  | [], _, h => absurd h nofun
  | run :: runs, hstand, h => by
    by_cases hvalue : run.value = []
    · have htext : textOf (run :: runs) = textOf runs := by
        rw [textOf, textOf, List.flatMap_cons, hvalue, List.nil_append]
      have hstart : textStartOf offset (run :: runs) = textStartOf offset runs := by
        rw [textStartOf, textStartOf, List.find?_cons_of_neg (by simp [hvalue])]
      rw [hstart]
      exact textOf_eq_some (fun r hr => hstand r (List.mem_cons_of_mem _ hr)) (htext ▸ h)
    · refine ⟨run, ?_, hstand run List.mem_cons_self, hvalue, ?_⟩
      · rw [textStartOf, List.find?_cons_of_pos (by simp [hvalue])]
        rfl
      · rw [textOf, List.flatMap_cons] at h
        split at h
        · exact absurd h nofun
        · obtain rfl := Option.some.inj h
          exact List.prefix_append _ _

mutual

/-- The texts of an element and of all below it stand where the tree says. -/
theorem Node.text_stands (outer post : Text) : ∀ (pre : Text) (node : Node),
    ∀ e ∈ node.toElement outer pre.length, ∀ d, Element.Below e d →
      d.TextStands (pre ++ node.render ++ post)
  | pre, .element tag children space => by
    intro e he d hd
    obtain rfl := Option.some.inj (Option.mem_def.1 he)
    let inside := pre ++ tag.render ++ ['>']
    let behind := "</".toList ++ tag.name ++ space ++ ['>'] ++ post
    have hlength : inside.length = pre.length + tag.render.length + 1 := by
      simp only [inside, List.length_append, List.length_singleton]
    have htext : inside ++ renderAll children ++ behind =
        pre ++ (Node.element tag children space).render ++ post := by
      simp only [inside, behind, Node.render, List.append_assoc]
    cases hd with
    | self =>
      intro t ht
      rw [← htext, ← hlength]
      exact textOf_eq_some (runs_standIn behind inside children) (hlength ▸ ht)
    | child hc hd =>
      rw [← htext]
      exact texts_stand (tag.namespaceIn outer) behind inside children _ (hlength ▸ hc) d hd
  | _, .empty tag => by
    intro e he d hd
    obtain rfl := Option.some.inj (Option.mem_def.1 he)
    cases hd with
    | self => exact fun t ht => absurd ht nofun
    | child hc _ => exact absurd hc List.not_mem_nil
  | _, .chars _ => fun _ h => absurd h nofun
  | _, .reference .. => fun _ h => absurd h nofun
  | _, .cdata _ => fun _ h => absurd h nofun
  | _, .comment _ => fun _ h => absurd h nofun
  | _, .instruction _ => fun _ h => absurd h nofun

theorem texts_stand (outer post : Text) : ∀ (pre : Text) (nodes : List Node),
    ∀ e ∈ toElements outer pre.length nodes, ∀ d, Element.Below e d →
      d.TextStands (pre ++ renderAll nodes ++ post)
  | _, [] => fun _ h => absurd h List.not_mem_nil
  | pre, node :: nodes => by
    intro e he d hd
    rcases List.mem_append.1 he with he | he
    · have hstands := node.text_stands outer (renderAll nodes ++ post) pre e
        (Option.mem_toList.1 he) d hd
      rwa [← List.append_assoc, List.append_assoc pre] at hstands
    · rw [← List.length_append] at he
      have hstands := texts_stand outer post (pre ++ node.render) nodes e he d hd
      rwa [List.append_assoc pre] at hstands

end

/-- Every element's text stands where the tree says. -/
theorem Document.text_stands (doc : Document) {e : Element} (h : Element.Below doc.fromstring e) :
    e.TextStands doc.text :=
  doc.root.text_stands [] doc.epilog doc.prolog _ (Option.get_mem doc.isElement) e h

end ChunkHound.Xml
