/-
# `Stencil.Store.Basic` — where sources of templates come from

A compiler asks a store for the source at a location.  A store holds finitely many
sources and does not change while a template is compiled.
-/
import Stencil.Bytes
import Stencil.Store.Location
import Stencil.Table

namespace Stencil

/-- Sources by location.  Whatever the store gives is among its sources. -/
structure Store where
  load : String → Option Bytes
  sources : List Bytes
  mem_sources : ∀ {location data}, load location = some data → data ∈ sources

/-- Sources held in memory, under their normalized locations. -/
abbrev SourceTable := Table String Bytes

namespace SourceTable

def add (files : SourceTable) (location : String) (source : Bytes) : SourceTable :=
  files.insert (Location.normalize location) source

def ofFiles (files : List (String × Bytes)) : SourceTable :=
  files.foldl (fun table file => add table file.1 file.2) []

/-- The store that finds a source under every spelling of its location. -/
def store (files : SourceTable) : Store where
  load location := files.find? (Location.normalize location)
  sources := files.map Prod.snd
  mem_sources := Table.mem_of_find?

end SourceTable

end Stencil
