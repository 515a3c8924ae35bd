import ProgramGraph.Time.Duration

set_option autoImplicit false

/-! # Settings of reading and keeping in step

How source files are read, and how a store is kept in step with them. In a document every
setting may be left out and then has its default.
-/

namespace ProgramGraph

open ProgramGraph.Wire

/-- How the files of a language are read. -/
structure ReaderSettings where
  /-- A larger file is refused, in bytes. -/
  maxFileSize : UInt64
  /-- Documentation texts are kept. -/
  includeDocs : Bool
  /-- The encoding that is noted for a file that names none. -/
  defaultEncoding : String
  deriving Repr, DecidableEq, Inhabited

namespace ReaderSettings

/-- The settings if nothing is said: ten mebibytes, with documentation. -/
def standard : ReaderSettings := ⟨10 * 1024 * 1024, true, "utf-8"⟩

/-- The settings without documentation. -/
def fast : ReaderSettings := { standard with includeDocs := false }

/-- The settings as a map. -/
def toWire (s : ReaderSettings) : Value :=
  .map
    [(.name "max_file_size", .integer s.maxFileSize.toNat),
      (.name "include_docs", .bool s.includeDocs),
      (.name "default_encoding", .text s.defaultEncoding)]

/-- Reads settings. -/
def ofWire? (v : Value) : Option ReaderSettings := do
  let m ← v.members? [["max_file_size"], ["include_docs"], ["default_encoding"]]
  let maxFileSize ← m.orElse "max_file_size" Value.word64? standard.maxFileSize
  let includeDocs ← m.orElse "include_docs" Value.bool? standard.includeDocs
  let defaultEncoding ← m.orElse "default_encoding" Value.text? standard.defaultEncoding
  pure ⟨maxFileSize, includeDocs, defaultEncoding⟩

end ReaderSettings

/-- How a store is kept in step with files. -/
structure SyncSettings where
  /-- The extensions of the files that count, with their point. -/
  watchedExtensions : List String
  /-- The directories whose files do not count. -/
  ignoredDirs : List String
  /-- Changes of a file that follow each other within this time are one change. -/
  debounce : Duration
  /-- The number of changes that may wait. -/
  maxQueueSize : UInt64
  /-- How long an empty queue is waited on. -/
  pollInterval : Duration
  /-- How long is waited after a change was put back into the queue. -/
  requeueDelay : Duration
  /-- How long stopping may take. -/
  stopTimeout : Duration
  deriving DecidableEq, Inhabited

namespace SyncSettings

/-- The settings if nothing is said. -/
def standard : SyncSettings where
  watchedExtensions :=
    [".py", ".go", ".java", ".js", ".ts", ".jsx", ".tsx", ".c", ".cpp", ".h", ".hpp"]
  ignoredDirs := ["node_modules", "__pycache__", ".git", "build", "dist", "target"]
  debounce := .ofSeconds 1
  maxQueueSize := 1000
  pollInterval := .ofSeconds 1
  requeueDelay := .ofMilliseconds 100
  stopTimeout := .ofSeconds 5

/-- Sets the number of changes that may wait, at least one. -/
def withMaxQueueSize (s : SyncSettings) (n : UInt64) : SyncSettings :=
  { s with maxQueueSize := max n 1 }

/-- The settings as a map. -/
def toWire (s : SyncSettings) : Value :=
  .map
    [(.name "watched_extensions", .list (s.watchedExtensions.map .text)),
      (.name "ignored_dirs", .list (s.ignoredDirs.map .text)),
      (.name "debounce_interval", s.debounce.toWire),
      (.name "max_queue_size", .integer s.maxQueueSize.toNat),
      (.name "poll_interval", s.pollInterval.toWire),
      (.name "requeue_delay", s.requeueDelay.toWire),
      (.name "stop_timeout", s.stopTimeout.toWire)]

/-- Reads settings. -/
def ofWire? (v : Value) : Option SyncSettings := do
  let m ← v.members? [["watched_extensions"], ["ignored_dirs"], ["debounce_interval"],
    ["max_queue_size"], ["poll_interval"], ["requeue_delay"], ["stop_timeout"]]
  let texts := Value.list? Value.text?
  let watchedExtensions ← m.orElse "watched_extensions" texts standard.watchedExtensions
  let ignoredDirs ← m.orElse "ignored_dirs" texts standard.ignoredDirs
  let debounce ← m.orElse "debounce_interval" Duration.ofWire? standard.debounce
  let maxQueueSize ← m.orElse "max_queue_size" Value.word64? standard.maxQueueSize
  let pollInterval ← m.orElse "poll_interval" Duration.ofWire? standard.pollInterval
  let requeueDelay ← m.orElse "requeue_delay" Duration.ofWire? standard.requeueDelay
  let stopTimeout ← m.orElse "stop_timeout" Duration.ofWire? standard.stopTimeout
  pure ⟨watchedExtensions, ignoredDirs, debounce, maxQueueSize, pollInterval, requeueDelay,
    stopTimeout⟩

end SyncSettings

end ProgramGraph
