import IsaLogic.Clause.Basic

/-!
# Specification databases

A database knows which versions of an extension exist, what each of them
requires, and what must hold for a parameter to be defined. Names and versions
are ascending.
-/

namespace IsaLogic

/-- What a specification says of extensions and parameters. -/
structure Database where
  extensions : List (String × List (Version × Option Clause)) := []
  parameters : List (String × Clause) := []
deriving Inhabited

namespace Database

/-- The database that knows nothing. -/
def empty : Database := {}

/-- The versions of an extension with their requirements, ascending. -/
def releases (db : Database) (name : String) : List (Version × Option Clause) :=
  (lookup? name db.extensions).getD []

/-- The versions of an extension, ascending. -/
def versions (db : Database) (name : String) : List Version :=
  (db.releases name).map Prod.fst

/-- What an extension at a version requires. -/
def requirement? (db : Database) (name : String) (version : Version) : Option Clause :=
  (lookup? version (db.releases name)).join

/-- What must hold for a parameter to be defined. -/
def parameterRequirement? (db : Database) (name : String) : Option Clause :=
  lookup? name db.parameters

/-- Add a version of an extension; a version that is already there is replaced. -/
def addVersion (db : Database) (name : String) (version : Version)
    (requires : Option Clause) : Database :=
  { db with
    extensions := insertEntry name (insertEntry version requires (db.releases name))
      db.extensions }

/-- Add a parameter; one that is already there is replaced. -/
def addParameter (db : Database) (name : String) (requires : Clause) : Database :=
  { db with parameters := insertEntry name requires db.parameters }

end Database

end IsaLogic
