import SheetPress.Text.Wrap
import SheetPress.Fault

/-!
# Printing a stylesheet

A printed stylesheet is a row of rules in the order given: a selector with its
properties in braces, inside a media block where the rule asks for one.  A `Layout` says
what stands between the parts; a compact layout puts nothing there and leaves out the
last semicolon of a block.
-/

set_option autoImplicit false

namespace SheetPress.Sheet

/-- A property with its line; a line that is no property has no value. -/
structure Property where
  line : Int
  name : Text
  value : Option Text
  deriving DecidableEq, Repr

structure Layout where
  /-- The last property of a block ends with a semicolon too. -/
  lastSemicolon : Bool
  space : Text
  tab : Text
  newline : Text

namespace Layout

def compact : Layout := ⟨false, [], [], []⟩

def spacious : Layout := ⟨true, [' '], [' ', ' '], ['\n']⟩

end Layout

structure Block where
  selectors : Text
  media : Option (List Text)
  properties : List Property
  remarks : List Text := []
  debugLine : Option Text := none

/-- The mark of a value that only fills a gap. -/
def defaultMark : Text := "!default".toList

def dropDefault (t : Text) : Text :=
  Text.trim (Text.replace [' ', ' '] [' '] (Text.replace defaultMark [] t))

def propertyText (layout : Layout) (indent : Text) (p : Property) : Text :=
  match p.value with
  | none => p.name
  | some v =>
    let v :=
      if layout.newline.isEmpty then v
      else Text.joinWith (layout.newline ++ indent ++ indent) (Text.wrap v)
    p.name ++ ':' :: (layout.space ++ v)

/-- The properties of a rule.  A property that repeats the one printed before it is left
out, and so is one marked as a default whose name was printed already.  `seen` holds the
names printed so far, `last` the property printed last. -/
def propertiesFrom (layout : Layout) (indent : Text) :
    (seen : List Text) → (last : Option Text) → List Property → Text
  | _, _, [] => []
  | seen, last, p :: rest =>
    let text := propertyText layout indent p
    let isDefault := Text.contains text defaultMark
    let text := if isDefault then dropDefault text else text
    if isDefault && seen.contains p.name || last == some text then
      propertiesFrom layout indent seen last rest
    else
      indent ++ text ++ ';' :: (layout.newline ++
        propertiesFrom layout indent (p.name :: seen) (some text) rest)

def printProperties (layout : Layout) (indent : Text) (ps : List Property) : Text :=
  propertiesFrom layout indent [] none ps

/-- What is open while a stylesheet is printed, and the text so far. -/
structure Page where
  text : Text := []
  openSelectors : Bool := false
  openMedia : Bool := false
  media : Option (List Text) := none

namespace Page

def blockEnd (layout : Layout) (t : Text) : Text :=
  if !layout.lastSemicolon && t.getLast? == some ';' then t.dropLast else t

def closeSelectors (layout : Layout) (indent : Text) (p : Page) : Page :=
  if p.openSelectors then
    { p with
      text := blockEnd layout p.text ++ indent ++ '}' :: layout.newline
      openSelectors := false }
  else p

def closeMedia (layout : Layout) (p : Page) : Page :=
  if p.openMedia then
    { p with text := blockEnd layout p.text ++ '}' :: layout.newline, openMedia := false }
  else p

def mediaIndent (layout : Layout) : Option (List Text) → Text
  | some (_ :: _) => layout.tab
  | _ => []

/-- Open the block of some media.  They are a set, named in the order of sets. -/
def openMediaBlock (sets : SetOrder) (layout : Layout) (media : Option (List Text)) (p : Page) :
    Page :=
  match media with
  | some (m :: ms) =>
    let names := Text.joinWith " and ".toList (sets.list (m :: ms).eraseDups)
    { p with
      text := p.text ++ "@media ".toList ++ names ++ layout.space ++ '{' :: layout.newline
      openMedia := true, media }
  | m => { p with media := m }

def selectorLine (layout : Layout) (selectors : Text) : Text :=
  let line := Text.joinWith (',' :: layout.space) (Text.splitOn ',' selectors) ++ layout.space ++
    ['{']
  if layout.newline.isEmpty then line else Text.joinWith layout.newline (Text.wrap line)

/-- Print a rule behind those before it. -/
def addBlock (sets : SetOrder) (layout : Layout) (p : Page) (b : Block) : Page :=
  let p :=
    if p.media != b.media || b.media.isSome then
      openMediaBlock sets layout b.media
        ((p.closeSelectors layout (mediaIndent layout p.media)).closeMedia layout)
    else p
  let indent := mediaIndent layout b.media
  let p := p.closeSelectors layout indent
  let p :=
    if b.selectors.isEmpty then p
    else
      let debug := (b.debugLine.map fun t => t ++ layout.newline).getD []
      { p with
        text := p.text ++ debug ++ indent ++ selectorLine layout b.selectors ++ layout.newline
        openSelectors := true }
  let indent := if b.selectors.isEmpty then indent else indent ++ layout.tab
  let remarks := b.remarks.flatMap fun t => indent ++ t ++ layout.newline
  { p with text := p.text ++ remarks ++ printProperties layout indent b.properties }

def finish (layout : Layout) (p : Page) : Text :=
  let indent := if p.openMedia then layout.tab else []
  ((p.closeSelectors layout indent).closeMedia layout).text ++ ['\n']

end Page

/-- The text of a stylesheet with these rules. -/
def print (sets : SetOrder) (layout : Layout) (blocks : List Block) : Text :=
  (blocks.foldl (Page.addBlock sets layout) {}).finish layout

end SheetPress.Sheet
