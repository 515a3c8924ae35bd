import ProgramGraph.Time.Duration

set_option autoImplicit false

/-! # Settings of the stores

A store is set up by a value of one of two structures. In a document every setting may be left
out and then has its default.
-/

namespace ProgramGraph

open ProgramGraph.Wire

/-- The settings of a table store. -/
structure TableSettings where
  /-- The file of the database, or `:memory:` for a private one. -/
  database : String
  /-- How long a statement waits for a locked database. -/
  busyTimeout : Duration
  /-- Statements are logged. -/
  echo : Bool
  /-- How many records a bulk save writes at once. -/
  batchSize : UInt64
  deriving DecidableEq, Inhabited

namespace TableSettings

/-- The settings if nothing is said. -/
def standard : TableSettings where
  database := "codesage_graph.db"
  busyTimeout := .ofSeconds 30
  echo := false
  batchSize := 1000

/-- The settings of a private store that lives as long as it is open. -/
def inMemory : TableSettings := { standard with database := ":memory:" }

/-- Sets how many records are written at once, at least one. -/
def withBatchSize (s : TableSettings) (n : UInt64) : TableSettings :=
  { s with batchSize := max n 1 }

/-- The settings as a map. -/
def toWire (s : TableSettings) : Value :=
  .map
    [(.name "database", .text s.database), (.name "busy_timeout", s.busyTimeout.toWire),
      (.name "echo", .bool s.echo), (.name "batch_size", .integer s.batchSize.toNat)]

/-- Reads settings. -/
def ofWire? (v : Value) : Option TableSettings := do
  let m ← v.members? [["database"], ["busy_timeout"], ["echo"], ["batch_size"]]
  let database ← m.orElse "database" Value.text? standard.database
  let busyTimeout ← m.orElse "busy_timeout" Duration.ofWire? standard.busyTimeout
  let echo ← m.orElse "echo" Value.bool? standard.echo
  let batchSize ← m.orElse "batch_size" Value.word64? standard.batchSize
  pure ⟨database, busyTimeout, echo, batchSize⟩

end TableSettings

/-- The settings of a keyed store. -/
structure KeyedSettings where
  /-- The directory of the store; one in memory has none. -/
  path : String
  /-- What every key of the store starts with. -/
  keyRoot : String
  /-- How long a saved entry lives; without a value, forever. -/
  defaultLife : Option Duration
  /-- The edges that reach a node are deleted along with it. -/
  cascadeIncoming : Bool
  /-- How many records a bulk save writes at once. -/
  batchSize : UInt64
  deriving DecidableEq, Inhabited

namespace KeyedSettings

/-- The settings if nothing is said: entries live for an hour. -/
def standard : KeyedSettings where
  path := "codesage_graph_kv"
  keyRoot := "codesage:graph"
  defaultLife := some (.ofSeconds 3600)
  cascadeIncoming := false
  batchSize := 1000

/-- Sets how many records are written at once, at least one. -/
def withBatchSize (s : KeyedSettings) (n : UInt64) : KeyedSettings :=
  { s with batchSize := max n 1 }

/-- The settings as a map. -/
def toWire (s : KeyedSettings) : Value :=
  .map
    [(.name "path", .text s.path), (.name "key_prefix", .text s.keyRoot),
      (.name "default_ttl", s.defaultLife.elim .null Duration.toWire),
      (.name "cascade_incoming", .bool s.cascadeIncoming),
      (.name "batch_size", .integer s.batchSize.toNat)]

/-- Reads settings. -/
def ofWire? (v : Value) : Option KeyedSettings := do
  let m ← v.members? [["path"], ["key_prefix"], ["default_ttl"], ["cascade_incoming"],
    ["batch_size"]]
  let path ← m.orElse "path" Value.text? standard.path
  let keyRoot ← m.orElse "key_prefix" Value.text? standard.keyRoot
  let defaultLife ←
    m.orElse "default_ttl" (Value.nullable Duration.ofWire?) standard.defaultLife
  let cascadeIncoming ← m.orElse "cascade_incoming" Value.bool? standard.cascadeIncoming
  let batchSize ← m.orElse "batch_size" Value.word64? standard.batchSize
  pure ⟨path, keyRoot, defaultLife, cascadeIncoming, batchSize⟩

end KeyedSettings

end ProgramGraph
