import SheetPress.Library.Routine

/-!
# Images and sprites

Addresses of static files, and the places of images in sprite maps.  Image files
themselves cannot be opened.
-/

set_option autoImplicit false

namespace SheetPress.Library

/-! ## Static files -/

/-- File extensions whose kind of content is known. -/
def knownExtensions : List Text :=
  [".png", ".jpg", ".jpeg", ".jpe", ".gif", ".svg", ".svgz", ".ico", ".bmp", ".tif", ".tiff",
    ".webp", ".css", ".js", ".mjs", ".html", ".htm", ".txt", ".xml", ".json", ".pdf", ".zip",
    ".tar", ".csv", ".mp3", ".mp4", ".wav", ".avi", ".mov", ".mpeg", ".mpg", ".ps", ".eps",
    ".ai", ".swf", ".doc", ".xls", ".ppt", ".py", ".c", ".h", ".bat", ".ksh", ".pl", ".tsv",
    ".rtf", ".md", ".ttf", ".otf", ".woff", ".woff2", ".eot"].map String.toList

def kindIsKnown (name : Text) : Bool :=
  let (stem, extension) := Path.cutExtension name
  let extension := Text.lower extension
  let packed := [".gz", ".bz2", ".xz", ".z", ".br"].map String.toList
  if packed.contains extension then
    knownExtensions.contains (Text.lower (Path.cutExtension stem).2)
  else knownExtensions.contains extension

def staticAddress (file time : Text) : Text :=
  Assets.staticUrl ++ file ++ "?_=".toList ++ time

/-- The time of a file that is unknown. -/
def noTime : Text := "NA".toList

/-- The address of a static image.  Another colour would need the image itself. -/
def imageAddress (image : Value) (wanted given : Option Value) : Calc Value := do
  let isTrue (v : Option Value) : Calc Bool :=
    match v with
    | none => return false
    | some v => v.isTrue
  let recolour ← isTrue wanted
  if ← isTrue given then
    if recolour then throw .noImages
  let file ← image.text
  let assets ← Calc.assets
  let time ←
    match assets.store with
    | some times =>
      match times.lookup file with
      | some t => pure (if recolour then noTime else Text.ofInt t)
      | none => pure noTime
    | none =>
      let path := Path.join assets.staticRoot file
      if assets.files.exists? path then
        if recolour then
          if !assets.files.isFile path then throw .unreadable
          if ← isTrue given then
            match given with
            | some v => let _ ← v.channels
            | none => pure ()
          match wanted with
          | some v => let _ ← v.channels
          | none => pure ()
          throw .missingPart
        else pure (Text.ofInt Assets.fileTime)
      else pure noTime
  return .string ("url(\"".toList ++ staticAddress file time ++ "\")".toList)

/-- The address of a static file whose content may be looked at. -/
def inlineAddress (image : Value) (kind : Option Value) : Calc Value := do
  let file ← image.text
  let kind ←
    match kind with
    | none => pure []
    | some v => v.text
  let assets ← Calc.assets
  if assets.store.isNone then
    let path := Path.join assets.staticRoot file
    if assets.files.exists? path then
      if !assets.files.isFile path then throw .unreadable
      if kind.isEmpty && !kindIsKnown file then throw .wrongKind
  return .string ("url(\"".toList ++ Text.escape (staticAddress file noTime) ++ "\")".toList)

/-! ## Sprites -/

def findMap (map : Text) : Calc (Option SpriteMap) := do
  match (← Calc.assets).spriteMaps.lookup map with
  | some m => if m.isEmpty then missed else return some m
  | none => missed
where
  /-- Note that there is no such map. -/
  missed : Calc (Option SpriteMap) := do
    Calc.logLine .error ("No sprite map found: ".toList ++ map)
    return none

/-- Something that a map has to say. -/
def stated (t : Option Text) : Calc Text :=
  match t with
  | some t => return t
  | none => throw .missingKey

/-- A sprite in a map, missed in the journal if there is none. -/
def findSprite (map sprite : Value) : Calc (Option (SpriteMap × Sprite)) := do
  let map ← map.text
  let name ← sprite.text
  match ← findMap map with
  | none => return none
  | some m =>
    match m.sprites.lookup name with
    | some s => return some (m, s)
    | none =>
      Calc.logLine .error
        ("No sprite found: ".toList ++ name ++ " in ".toList ++ (← stated m.name))
      return none

def mapAddress (m : SpriteMap) : Calc Text := do
  let file ← stated m.file
  let stamp ← stated m.stamp
  return "url(".toList ++ Text.escape (Assets.assetsUrl ++ file ++ "?_=".toList ++ stamp) ++ [')']

/-- Where a sprite is drawn: an offset of one pixel or more moves it from its place, a
smaller one or a percentage stands by itself. -/
def placed (offset : Option Value) (place : Float) : Calc Value := do
  let zero : Value := .scalar (.whole 0)
  let offset ←
    match offset with
    | none => pure zero
    | some v => if ← v.isTrue then pure v else pure zero
  let q ← offset.quantityIn "px".toList
  let x ← Calc.newNumber q
  let large (c : Comparison) (i : Int) : Calc Bool := Value.compare c x (.scalar (.whole i))
  let moves ←
    if !q.size.isTrue then pure true
    else if ← large .le (-1) then pure (q.unit != ['%'])
    else if ← large .ge 1 then pure (q.unit != ['%'])
    else pure false
  if moves then Value.operate .sub x (.scalar (.real place)) else return x

def sprite (map name : Value) (x y : Option Value) : Calc Value := do
  match ← findSprite map name with
  | none => return .string "0 0".toList
  | some (m, s) =>
    let address ← mapAddress m
    let x ← placed x s.left
    let y ← placed y s.top
    let x ← x.shown
    let y ← y.shown
    return .string (address ++ ' ' :: x ++ ' ' :: y)

def coordinateOf (words : List String) (offset : Option Value) (place : Float) : Calc Text := do
  let word ←
    match offset with
    | none => pure none
    | some (.number _) => pure none
    | some v => do pure (some (← v.spelled))
  match word with
  | some w =>
    if (words.map String.toList).contains w then return w
    let v ← placed (if w.isEmpty then offset else none) place
    v.spelled
  | none => do
    let v ← placed offset place
    v.spelled

def spritePosition (map name : Value) (x y : Option Value) : Calc Value := do
  match ← findSprite map name with
  | none => return .string "0 0".toList
  | some (_, s) =>
    let x ← coordinateOf ["left", "right", "center"] x s.left
    let y ← coordinateOf ["top", "bottom", "center"] y s.top
    return .string (x ++ ' ' :: y)

def mapName (map : Value) : Calc Value := do
  match ← findMap (← map.text) with
  | some m => return .string (← stated m.name)
  | none => return .string []

def mapUrl (map : Value) : Calc Value := do
  match ← findMap (← map.text) with
  | some m => return .string (← mapAddress m)
  | none => return .string []

def spriteFile (map name : Value) : Calc Value := do
  match ← findSprite map name with
  | some (_, s) => return .quoted s.file
  | none => return .string []

def spriteNames (map : Value) : Calc Value := do
  let map ← map.text
  let names := (((← Calc.assets).spriteMaps.lookup map).map fun m => m.sprites.map Prod.fst)
  (Listing.ofValues none ((Text.sortedSet (names.getD [])).map .word)).toValue

/-- A routine with a map, a sprite and two offsets. -/
def ofSprite (f : Value → Value → Option Value → Option Value → Calc Value) : Routine where
  required := ["map", "sprite"].map String.toList
  optional := ["offset_x", "offset_y"].map String.toList
  body
    | [some m, some s, x, y], _ => f m s x y
    | _, _ => throw .wrongKind

def withoutImages (required optional : List String) (anyName : Bool) : Routine where
  required := required.map String.toList
  optional := optional.map String.toList
  anyName
  body := fun _ _ => throw .noImages

def images : List (String × Routine) :=
  let grid := withoutImages ["left_gutter", "width", "right_gutter", "height"]
    ["columns", "grid_color", "baseline_color", "background_color", "inline"] false
  let filled := withoutImages ["color"] ["width", "height"] false
  let measured := withoutImages ["image"] [] false
  let address : Routine :=
    { required := ["image".toList]
      optional := ["dst_color", "src_color"].map String.toList
      body := fun
        | [some i, d, s], _ => imageAddress i d s
        | _, _ => throw .wrongKind }
  let inline := Routine.ofOneOrTwo "image" "mime_type" inlineAddress
  [ ("grid-image:4", grid), ("grid-image:5", grid),
    ("image-color:1", filled), ("image-color:2", filled), ("image-color:3", filled),
    ("sprite-map:1", withoutImages ["g"] [] true),
    ("sprites:1", .ofOne "map" spriteNames),
    ("sprite:2", ofSprite sprite), ("sprite:3", ofSprite sprite), ("sprite:4", ofSprite sprite),
    ("sprite-map-name:1", .ofOne "map" mapName),
    ("sprite-file:2", .ofTwo "map" "sprite" spriteFile),
    ("sprite-url:1", .ofOne "map" mapUrl),
    ("sprite-position:2", ofSprite spritePosition),
    ("sprite-position:3", ofSprite spritePosition),
    ("sprite-position:4", ofSprite spritePosition),
    ("inline-image:1", inline), ("inline-image:2", inline),
    ("image-url:1", address), ("image-url:2", address), ("image-url:3", address),
    ("image-width:1", measured), ("image-height:1", measured) ]

end SheetPress.Library
