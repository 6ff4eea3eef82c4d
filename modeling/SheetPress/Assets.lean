import SheetPress.Files

/-!
# Assets

What stylesheet functions can know about files that belong to a site: static files, a
store of their modification times that may stand in for them, and the sprite maps that
were made before.
-/

set_option autoImplicit false

namespace SheetPress

/-- An image inside a sprite map: its file and its place. -/
structure Sprite where
  file : Text
  left : Float
  top : Float

/-- A sprite map: the name of its directory, its image file, the time it was made, and its
images.  What a map does not say is missing. -/
structure SpriteMap where
  name : Option Text
  file : Option Text
  stamp : Option Text
  sprites : List (Text × Sprite)

namespace SpriteMap

def isEmpty (m : SpriteMap) : Bool :=
  m.name.isNone && m.file.isNone && m.stamp.isNone && m.sprites.isEmpty

end SpriteMap

structure Assets where
  files : Files := Files.empty ['/']
  staticRoot : Text := []
  /-- Modification times by name; if there is a store, static files are looked up in it. -/
  store : Option (List (Text × Int)) := none
  spriteMaps : List (Text × SpriteMap) := []

namespace Assets

def staticUrl : Text := "/static/".toList

def assetsUrl : Text := "/static/assets/".toList

/-- The modification time of every file. -/
def fileTime : Int := 1000000000

end Assets

end SheetPress
