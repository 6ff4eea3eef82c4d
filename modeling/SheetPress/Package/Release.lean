import SheetPress.Text.Basic

/-!
# Releases

What a release says about itself: its name, its version and the day it was made.  Who made it
and where it is found is given from outside.
-/

set_option autoImplicit false

namespace SheetPress.Package

/-- A release of a program. -/
structure Release where
  project : Text
  /-- The version, the largest step first. -/
  version : List Nat
  year : Nat
  month : Nat
  day : Nat
  deriving DecidableEq, Repr

/-- Who made a release, and where it is found. -/
structure Credits where
  author : Text
  email : Text
  address : Text
  licence : Text
  deriving DecidableEq, Repr

namespace Release

/-- The numbers of the version with dots between them. -/
def versionText (r : Release) : Text := Text.joinWith ['.'] (r.version.map Text.ofNat)

/-- A number with at least `width` digits. -/
def digits (width n : Nat) : Text := Text.padLeft width '0' (Text.ofNat n)

/-- The day, the year first. -/
def revision (r : Release) : Text := digits 4 r.year ++ digits 2 r.month ++ digits 2 r.day

/-- The line that names a release. -/
def build (r : Release) : Text :=
  r.project ++ " v".toList ++ r.versionText ++ " (".toList ++ r.revision ++ [')']

/-- All that a release says about itself, an entry on each line. -/
def report (r : Release) (c : Credits) : Text :=
  [ ("VERSION      = ", r.versionText), ("REVISION     = ", r.revision),
    ("BUILD_INFO   = ", r.build), ("AUTHOR       = ", c.author),
    ("AUTHOR_EMAIL = ", c.email), ("URL          = ", c.address),
    ("LICENSE      = ", c.licence), ("PROJECT      = ", r.project) ].flatMap
      fun (p : String × Text) => p.1.toList ++ p.2 ++ ['\n']

/-- The release of the stylesheet compiler. -/
def compiler : Release where
  project := "pyScss".toList
  version := [1, 0, 8]
  year := 2011
  month := 5
  day := 13

end Release

end SheetPress.Package
